/-
  BoundaryTag.Proofs.Verdicts — an audit of a heap whose memory was overwritten with anything at
  all.

  The audit reads sizes, footers and links that it must not trust. Sizes and footers it can
  always read, as it has judged the size before it steps by it or looks for the footer. A link
  it turns into an address before it judges it: a distance from the low end that is no word
  apart from it is an overflow, and the audit has no verdict.

  Proved: an audit ends with a verdict, or in an overflow for which a link word is to blame,
  unless the heap's high end cannot be rounded up to a word (`Run.audit_verdict`). That does
  happen (`audit_overflows`).
-/

import BoundaryTag.Proofs.Refusals

namespace BoundaryTag

/-- If there is no result, that is because of an overflow, and this is the cause. -/
def Excused {α : Type} (x : Except Fault α) (cause : Prop) : Prop :=
  ∀ f, x = .error f → f = .overflow ∧ cause

namespace Excused

variable {α β : Type} {m : Memory} {cause : Prop}

theorem of_ok {x : Except Fault α} {a : α} (h : x = .ok a) : Excused x cause := by
  intro f hf
  rw [h] at hf
  cases hf

protected theorem bind {x : Except Fault α} {f : α → Except Fault β} (hx : Excused x cause)
    (hf : ∀ a, x = .ok a → Excused (f a) cause) :
    Excused (x.bind f) cause := by
  cases hres : x with
  | error fault =>
    intro f hf
    injection hf with hf
    exact hf ▸ hx fault hres
  | ok a => exact hf a hres

protected theorem checkedAdd {a b : Nat} (h : wordLimit ≤ a + b → cause) :
    Excused (checkedAdd a b) cause := by
  intro f hf
  unfold BoundaryTag.checkedAdd at hf
  by_cases hlt : a + b < wordLimit
  · rw [if_pos hlt] at hf
    cases hf
  · rw [if_neg hlt] at hf
    injection hf with hf
    exact ⟨hf.symm, h (Nat.not_lt.mp hlt)⟩

protected theorem isAligned {addr : Nat} (h : wordLimit ≤ addr + 8 → cause) :
    Excused (isAligned addr) cause := by
  by_cases hlt : addr + wordSize < wordLimit
  · exact .of_ok (isAligned_eq hlt)
  · intro f hf
    rw [BoundaryTag.isAligned, align_overflow (Nat.not_lt.mp hlt)] at hf
    injection hf with hf
    exact ⟨hf.symm, h (Nat.not_lt.mp hlt)⟩

/-! ## Checks -/

protected theorem pure (a : α) : Excused ((pure a : Checking α).run m) cause := .of_ok rfl

protected theorem throw (c : Corruption) :
    Excused ((throw c : Checking α).run m) cause := .of_ok rfl

theorem reading {x : Reading α} (hx : Excused (x m) cause) :
    Excused ((liftM x : Checking α).run m) cause := by
  intro f hf
  have hrun : (liftM x : Checking α).run m = (x m).map Except.ok := rfl
  rw [hrun] at hf
  cases hres : x m with
  | error fault =>
    rw [hres] at hf
    injection hf with hf
    exact hf ▸ hx fault hres
  | ok a =>
    rw [hres] at hf
    cases hf

theorem except {x : Except Fault α} (hx : Excused x cause) :
    Excused ((liftM x : Checking α).run m) cause := by
  have hrun : (liftM x : Checking α).run m = x.map Except.ok := rfl
  rw [hrun]
  exact .bind hx fun a _ => .of_ok rfl

theorem check {x : Checking α} {f : α → Checking β} (hx : Excused (x.run m) cause)
    (hf : ∀ a, Checking.Passes x m a → Excused ((f a).run m) cause) :
    Excused ((x >>= f).run m) cause := by
  have hrun : (x >>= f).run m = (x.run m).bind fun a => ExceptT.bindCont f a m := rfl
  rw [hrun]
  refine .bind hx fun a ha => ?_
  cases a with
  | error c => exact .of_ok rfl
  | ok a => exact hf a ha

theorem ite {c : Prop} [Decidable c] {x y : Checking α} (hx : c → Excused (x.run m) cause)
    (hy : ¬ c → Excused (y.run m) cause) :
    Excused ((if c then x else y).run m) cause := by
  by_cases hc : c
  · rw [if_pos hc]
    exact hx hc
  · rw [if_neg hc]
    exact hy hc

/-- What is found here ends the check. -/
theorem past {c : Prop} [Decidable c] {corruption : Corruption} {f : α → Checking β}
    {y : Checking β} (hy : ¬ c → Excused (y.run m) cause) :
    Excused ((if c then (throw corruption >>= f) else y).run m) cause :=
  .ite (fun _ => .check (.throw corruption) fun _ ha => ((Checking.passes_throw).mp ha).elim) hy

end Excused

namespace Audit

variable {r : Region} {m : Memory} {first bp : Nat}

/-- An aligned address whose header reads as a free block of the region, with a link to no
    address. -/
structure Astray (r : Region) (m : Memory) (first bp : Nat) : Prop where
  first_le : first ≤ bp
  aligned : bp % 8 = 0
  free : ∃ tag, r.tag bp m = .ok tag ∧ tag.alloc = false ∧ 32 ≤ tag.size ∧
  bp + tag.size ≤ r.high + 8
  link : wordLimit ≤ r.low + m.word bp ∨ wordLimit ≤ r.low + m.word (bp + 8)

/-- What can keep an audit from a verdict. -/
def Cause (r : Region) (m : Memory) (first : Nat) : Prop :=
  wordLimit ≤ r.high + 8 ∨ ∃ bp, Astray r m first bp

/-! ## Reading a block -/

theorem excused_decodeLink {offset : Nat} {cause : Prop} (h : wordLimit ≤ r.low + offset → cause) :
    Excused (r.decodeLink offset) cause := by
  unfold Region.decodeLink
  by_cases h0 : offset = 0
  · rw [if_pos h0]
    exact .of_ok rfl
  · rw [if_neg h0]
    exact .bind (.checkedAdd h) fun a _ => .of_ok rfl

theorem excused_links {cause : Prop} (hlow : r.low ≤ bp) (hhigh : bp + 16 ≤ r.high)
    (hlt : r.high < wordLimit)
    (h : wordLimit ≤ r.low + m.word bp ∨ wordLimit ≤ r.low + m.word (bp + 8) → cause) :
    Excused (r.links bp m) cause := by
  have hnext : Excused (r.nextLink bp m) cause := by
    have hrun : r.nextLink bp m = r.decodeLink (m.word bp) := by
      simp only [Region.nextLink, Reading.bind_apply,
        Region.read_eq hlow (show bp + 8 ≤ r.high by omega), Except.bind, Reading.lift_apply]
    rw [hrun]
    exact excused_decodeLink fun hbig => h (.inl hbig)
  have hprev : Excused (r.prevLink bp m) cause := by
    have hrun : r.prevLink bp m = r.decodeLink (m.word (bp + 8)) := by
      simp only [Region.prevLink, Reading.bind_apply,
        Reading.lift_apply, wordSize, checkedAdd_ok (show bp + 8 < wordLimit by omega), Except.bind,
        Region.read_eq (show r.low ≤ bp + 8 by omega) (show bp + 8 + 8 ≤ r.high by omega)]
    rw [hrun]
    exact excused_decodeLink fun hbig => h (.inr hbig)
  exact .bind hnext fun next _ => .bind hprev fun prev _ => .of_ok rfl

/-- A block whose size was judged can be read, down to its footer, but for its links. -/
theorem excused_block {tag : Tag} (hlow : r.low + 8 ≤ first) (hlt : r.high < wordLimit)
    (hfirst : first ≤ bp) (h8 : bp % 8 = 0) (htag : r.tag bp m = .ok tag) (h32 : 32 ≤ tag.size)
    (hin : bp + tag.size ≤ r.high) : Excused (r.block bp m) (Cause r m first) := by
  have hrun : r.block bp m = if tag.alloc then .ok (.allocated bp tag) else
      (r.footerTag bp m).bind fun footer => (r.links bp m).bind fun links =>
        .ok (.free bp tag footer links) := by
    simp only [Region.block, Reading.bind_apply, htag, Except.bind]
    cases tag.alloc <;> rfl
  rw [hrun]
  cases ha : tag.alloc with
  | true => exact .of_ok rfl
  | false =>
    have hfooter := Region.footerTag_eq htag h32 (by omega) (by omega) (by omega)
    refine .bind (.of_ok hfooter) fun footer _ => .bind ?_ fun links _ => .of_ok rfl
    exact excused_links (by omega) (by omega) hlt fun hlink =>
      .inr ⟨bp, hfirst, h8, ⟨tag, htag, ha, h32, by omega⟩, hlink⟩

/-! ## The two walks -/

theorem excused_inspect {w : Walk} (hlow : r.low + 8 ≤ first) (hlt : r.high < wordLimit)
    (hfirst : first ≤ bp) (hle : bp ≤ r.high) :
    Excused ((inspect r w bp).run m) (Cause r m first) := by
  unfold inspect
  refine .check (.except (.isAligned fun hbig => .inl (by omega))) fun aligned haligned =>
    .past fun hal => ?_
  obtain rfl : aligned = true := by simpa using hal
  obtain ⟨h8, -⟩ := isAligned_true.mp (Checking.passes_except.mp haligned)
  refine .check (.reading (.of_ok (Region.tag_eq (by omega) hle))) fun tag htag =>
    .ite (fun _ => .pure _) fun _ => ?_
  have htag := Checking.passes_reading.mp htag
  by_cases hsmall : tag.size < minBlock
  · rw [dif_pos hsmall]
    exact .throw _
  by_cases hlong : r.high < bp + tag.size
  · rw [dif_neg hsmall, dif_pos hlong]
    exact .throw _
  rw [dif_neg hsmall, dif_neg hlong]
  refine .past fun _ => .check (.reading ?_) fun block _ => ?_
  · exact excused_block hlow hlt hfirst h8 htag (Nat.not_lt.mp hsmall) (Nat.not_lt.mp hlong)
  -- what the block is like decides on the verdict only
  cases block with
  | allocated => exact .pure _
  | free =>
    refine .past fun _ => ?_
    cases w.prevFree with
    | none => exact .pure _
    | some => exact .check (.throw _) fun _ ha => ((Checking.passes_throw).mp ha).elim

theorem excused_close {w : Walk} (hlow : r.low + 8 ≤ bp) (hle : bp ≤ r.high) {cause : Prop} :
    Excused ((close r w bp).run m) cause := by
  unfold close
  refine .check (.except (.of_ok (Region.header_eq hlow hle))) fun addr haddr => ?_
  have haddr := Checking.passes_except.mp haddr
  rw [Region.header_eq hlow hle] at haddr
  obtain rfl := Except.ok.inj haddr
  exact .check (.reading (.of_ok (Region.read_eq (by omega) (by omega)))) fun _ _ =>
    .past fun _ => .pure _

theorem excused_walkFrom {w : Walk} (hlow : r.low + 8 ≤ first) (hlt : r.high < wordLimit)
    (hfirst : first ≤ bp) (hle : bp ≤ r.high) :
    Excused (walkFrom r m w bp).outcome (Cause r m first) := by
  induction hn : r.high - bp using Nat.strongRecOn generalizing w bp with
  | ind n ih =>
    subst hn
    have hinspect := excused_inspect (m := m) (w := w) hlow hlt hfirst hle
    rw [walkFrom]
    rcases hi : (inspect r w bp).run m with fault | c | _ | passed
    · intro f hf
      injection hf with hf
      exact hf ▸ hinspect fault hi
    · exact .of_ok rfl
    · exact excused_close (by omega) hle
    · have h1 := passed.lt_next
      have h2 := passed.next_le
      exact ih _ (by omega) (by omega) h2 rfl

theorem excused_walk {prologue : Nat} (hlow : r.low + 8 ≤ prologue) (hle : prologue + 16 ≤ r.high)
    (hlt : r.high < wordLimit) :
    Excused (walk r m prologue).outcome (Cause r m (prologue + 16)) := by
  have hsentinel : Excused ((checkPrologue r prologue).run m) (Cause r m (prologue + 16)) := by
    unfold checkPrologue
    refine .check (.except (.of_ok (Region.header_eq hlow (by omega)))) fun addr haddr => ?_
    have haddr := Checking.passes_except.mp haddr
    rw [Region.header_eq hlow (by omega)] at haddr
    obtain rfl := Except.ok.inj haddr
    refine .check (.reading (.of_ok (Region.read_eq (by omega) (by omega)))) fun _ _ => ?_
    exact .check (.reading (.of_ok (Region.read_eq (by omega) (by omega)))) fun _ _ =>
      .ite (fun _ => .throw _) fun _ => .pure _
  rw [walk]
  rcases hp : (checkPrologue r prologue).run m with fault | c | _
  · intro f hf
    injection hf with hf
    exact hf ▸ hsentinel fault hp
  · exact .of_ok rfl
  · exact excused_walkFrom (by omega) hlt (Nat.le_refl _) hle

theorem excused_checkList {bucket inHeap inIndex lastSize : Nat} {prev cur : Option Nat}
    (hlow : r.low + 8 ≤ first) (hlt : r.high < wordLimit) :
    Excused ((checkList r first bucket inHeap inIndex prev lastSize cur).run m)
      (Cause r m first) := by
  induction hk : inHeap - inIndex using Nat.strongRecOn generalizing inIndex prev lastSize cur with
  | ind k ih =>
    subst hk
    cases cur with
    | none =>
      rw [checkList]
      exact .pure _
    | some bp =>
      rw [checkList]
      refine .ite (fun hmore => ?_) fun _ => .throw _
      refine .past fun hin => .check (.except (.isAligned fun hbig => ?_)) fun aligned haligned =>
        .past fun hal => ?_
      all_goals simp only [Bool.or_eq_true, decide_eq_true_eq, not_or, Nat.not_lt,
        Nat.not_le] at hin
      · exact .inl (by omega)
      obtain rfl : aligned = true := by simpa using hal
      obtain ⟨h8, -⟩ := isAligned_true.mp (Checking.passes_except.mp haligned)
      refine .check (.reading (.of_ok (Region.tag_eq (by omega) (by omega)))) fun tag htag =>
        .past fun hfree => .past fun hsize => ?_
      simp only [Bool.or_eq_true, decide_eq_true_eq, not_or, Nat.not_lt, minBlock,
        wordSize] at hsize
      have htag := Checking.passes_reading.mp htag
      refine .check (.except (.of_ok (if_pos hsize.1))) fun expected _ => .past fun _ =>
        .past fun _ => .check (.reading ?_) fun links _ => .past fun _ => ?_
      · refine excused_links (by omega) (by omega) hlt fun hlink =>
          .inr ⟨bp, hin.1, h8, ⟨tag, htag, ?_, hsize.1, by omega⟩, hlink⟩
        simpa using hfree
      · exact ih _ (by omega) rfl

theorem excused_checkLists {buckets : Buckets} {inHeap inIndex : Nat} {cs : List Nat}
    (hlow : r.low + 8 ≤ first) (hlt : r.high < wordLimit) :
    Excused ((checkLists r buckets first inHeap inIndex cs).run m) (Cause r m first) := by
  induction cs generalizing inIndex with
  | nil => exact .ite (fun _ => .throw _) fun _ => .pure _
  | cons c cs ih => exact .check (excused_checkList hlow hlt) fun _ _ => ih

theorem excused_validate {buckets : Buckets} {prologue : Nat} (hlow : r.low + 8 ≤ prologue)
    (hle : prologue + 16 ≤ r.high) (hlt : r.high < wordLimit) :
    Excused ((validate r buckets prologue).run m) (Cause r m (prologue + 16)) :=
  .check (excused_walk hlow hle hlt) fun _ _ =>
    .check (excused_checkLists (by simp only [doubleWord]; omega) hlt) fun _ _ => .pure _

end Audit

/-! ## Heaps -/

namespace Heap

variable {A : Type} [Arena A] {h h' : Heap A}

theorem looks_validate : Looks (validate : HeapM A (Except Corruption Stats)) := by
  unfold validate
  refine .bind_get (fun h h' hu => ?_) fun h => .bind .region fun r => .reading _
  simp only [hu.store, hu.prologue]

/-- A check that is passed leaves the heap as it is. -/
theorem checkAfter_still {op : Operation} (hrun : checkAfter op h = .ok () h') : h' = h := by
  simp only [checkAfter, HeapM.bind_apply, HeapM.get_apply] at hrun
  split at hrun
  · obtain ⟨verdict, h₁, hjudged, hrun⟩ := HeapM.bind_ok.mp hrun
    obtain rfl := looks_validate.ok hjudged
    cases verdict with
    | error => cases hrun
    | ok => cases hrun; rfl
  · cases hrun
    rfl

omit [Arena A] in
/-- Events are all that showing blocks leaves behind. -/
theorem saw_run (blocks : List Block) (h : Heap A) :
    ∃ trace, (blocks.forM fun block => emit (saw block)) h = .ok () { h with trace } := by
  induction blocks generalizing h with
  | nil => exact ⟨h.trace, rfl⟩
  | cons block blocks ih => exact ih { h with trace := h.trace.push (saw block) }

/-- A verbose check says what the audit says. -/
theorem checkHeap_run (hle : Arena.low h.arena ≤ Arena.high h.arena)
    (hlow : Arena.low h.arena % wordSize = 0) :
    ∃ h', Unchanged h h' ∧
      (∀ verdict, validate h = .ok verdict h →
        checkHeap true h = .ok (verdict.map fun _ => ()) h') ∧
      ∀ stop, validate h = .error stop h → checkHeap true h = .error stop h' := by
  obtain ⟨trace, hsaw⟩ := saw_run (Audit.walk h.bounds h.store.memory h.prologue).blocks h
  have hu : Unchanged h { h with trace } := ⟨rfl, rfl, rfl, rfl⟩
  have hrun : checkHeap true h = (do
      let verdict ← validate
      return verdict.map fun _ => () : HeapM A (Except Corruption Unit)) { h with trace } := by
    simp only [checkHeap, Bool.not_true, Bool.false_eq_true, if_false, HeapM.bind_apply,
      HeapM.get_apply, region_eq hle hlow]
    simp only [bounds] at hsaw
    rw [hsaw]
  refine ⟨_, hu, fun verdict hv => ?_, fun stop hv => ?_⟩
  · rw [hrun, HeapM.bind_apply, looks_validate.again hv hu]
    rfl
  · rw [hrun, HeapM.bind_apply, looks_validate.again_error hv hu]

/-- An audit of a heap whose memory was overwritten. -/
theorem Laid.audit [LawfulArena A] {row : List Tile} {idx : Index} (hl : Laid h row idx)
    (m : Memory) :
    (∃ verdict, validate (h.withMemory m) = .ok verdict (h.withMemory m)) ∨
      validate (h.withMemory m) = .error (.fault .overflow) (h.withMemory m) ∧
      Audit.Cause h.bounds m h.firstBlock := by
  have hlow := hl.tiled.low_le
  have hle := hl.tiled.row.le
  have hfirst : h.firstBlock = h.prologue + 16 := rfl
  have hregion : Heap.region (h.withMemory m) = .ok h.bounds (h.withMemory m) := by
    simp only [bounds] at hlow hle
    exact region_eq (show Arena.low h.arena ≤ Arena.high h.arena by omega) hl.low_aligned
  have hexcused : Excused ((Audit.validate h.bounds h.store.buckets h.prologue).run m)
      (Audit.Cause h.bounds m h.firstBlock) :=
    Audit.excused_validate (by omega) (by omega) hl.tiled.high_lt
  have hrun : validate (h.withMemory m) = (liftM
      (Audit.validate h.bounds h.store.buckets h.prologue).run : HeapM A _) (h.withMemory m) := by
    simp only [validate, HeapM.bind_apply, HeapM.get_apply, hregion]
    rfl
  rw [hrun, HeapM.lift_reading]
  rcases hv : (Audit.validate h.bounds h.store.buckets h.prologue).run
    (h.withMemory m).store.memory with fault | verdict
  · obtain ⟨rfl, hcause⟩ := hexcused fault hv
    exact .inr ⟨rfl, hcause⟩
  · exact .inl ⟨verdict, rfl⟩

end Heap

/-- After any run, and then with any memory whatever under the heap, both checks end with the
    same verdict, or both end in an overflow. That is so only if a block that reads as free has
    a link to no address, or if the heap's high end cannot be rounded up to a word. Neither
    check changes anything. -/
theorem Run.audit_verdict {A : Type} [Arena A] [LawfulArena A] {arena : A} {memory : Memory}
    {config : Config} {past : List (Call × Answer)} {w : World A} (hs : LawfulArena.Sane arena)
    (hr : Run arena memory config past w) (m : Memory) :
    (∃ verdict h', Heap.validate (w.heap.withMemory m) = .ok verdict (w.heap.withMemory m) ∧
      Heap.checkHeap true (w.heap.withMemory m) = .ok (verdict.map fun _ => ()) h' ∧
      (w.heap.withMemory m).Unchanged h') ∨
    (∃ h', Heap.validate (w.heap.withMemory m) = .error (.fault .overflow) (w.heap.withMemory m) ∧
      Heap.checkHeap true (w.heap.withMemory m) = .error (.fault .overflow) h' ∧
      (w.heap.withMemory m).Unchanged h' ∧
      (wordLimit ≤ w.heap.bounds.high + 8 ∨
        ∃ bp, Audit.Astray w.heap.bounds m w.heap.firstBlock bp)) := by
  obtain ⟨row, idx, hw⟩ := hr.sound hs
  have hlow := hw.laid.tiled.low_le
  have hle := hw.laid.tiled.row.le
  simp only [Heap.bounds] at hlow hle
  obtain ⟨h', hu, hok, herror⟩ := Heap.checkHeap_run (h := w.heap.withMemory m)
    (show Arena.low w.heap.arena ≤ Arena.high w.heap.arena by omega) hw.laid.low_aligned
  rcases hw.laid.audit m with ⟨verdict, hv⟩ | ⟨hv, hcause⟩
  · exact .inl ⟨verdict, h', hv, hok verdict hv, hu⟩
  · exact .inr ⟨h', hv, herror _ hv, hu, hcause⟩

/-- The only free block's next link names the block itself. The audit ends, and so
    does the verbose check. -/
theorem Run.audit_verdict_page : ∃ w h', Run page .blank {} [(.allocate 56, .ok (some 4128))] w ∧
    Heap.validate (w.heap.withMemory (w.heap.store.memory.setWord 4192 96)) =
      .ok (.error (.freeCount 1 2)) (w.heap.withMemory (w.heap.store.memory.setWord 4192 96)) ∧
    Heap.checkHeap true (w.heap.withMemory (w.heap.store.memory.setWord 4192 96)) =
      .ok (.error (.freeCount 1 2)) h' := by
  obtain ⟨w, hr, -, hlook⟩ := Run.of_trial page .blank {} [.allocate 56] [.ok (some 4128)]
    (fun h => Heap.answer? Heap.validate (h.withMemory (h.store.memory.setWord 4192 96)))
      (some (.error (.freeCount 1 2)))
    (by decide +kernel) (by decide +kernel)
  obtain ⟨h₁, hv⟩ := Heap.answer_some hlook
  rcases Run.audit_verdict (A := FixedArena) trivial hr (w.heap.store.memory.setWord 4192 96) with
    ⟨verdict, h', hvalidate, hcheck, -⟩ | ⟨_, hvalidate, -⟩
  · rw [hvalidate] at hv
    injection hv with hverdict
    subst hverdict
    exact ⟨w, h', hr, hvalidate, hcheck⟩
  · rw [hvalidate] at hv
    cases hv

/-- One link word of the only free block is overwritten with the largest word, and the audit has
    no verdict. -/
theorem Run.audit_overflows : ∃ w, Run page .blank {} [(.allocate 56, .ok (some 4128))] w ∧
    Heap.validate (w.heap.withMemory (w.heap.store.memory.setWord 4200 18446744073709551615)) =
      .error (.fault .overflow)
        (w.heap.withMemory (w.heap.store.memory.setWord 4200 18446744073709551615)) := by
  obtain ⟨w, hr, -, hlook⟩ := Run.of_trial page .blank {} [.allocate 56] [.ok (some 4128)]
    (fun h => Heap.stop? Heap.validate
      (h.withMemory (h.store.memory.setWord 4200 18446744073709551615))) (some (.fault .overflow))
    (by decide +kernel) (by decide +kernel)
  obtain ⟨h', hv⟩ := Heap.stop_some hlook
  obtain rfl := Heap.looks_validate.error hv
  exact ⟨w, hr, hv⟩

end BoundaryTag
