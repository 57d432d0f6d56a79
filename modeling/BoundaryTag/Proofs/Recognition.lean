/-
  BoundaryTag.Proofs.Recognition — telling the addresses of live blocks from all others.

  An address is judged by the word below it. That word can be anything: a header from before two
  blocks were merged, the footer or a link of a free block, the epilogue, part of a payload, or
  what reallocation and zeroing left there. The heap knows the headers of live blocks from all
  of these if the program keeps bit 0 of its aligned words clear (`WritesPlain`).

  Proved:
  - `Run.even_writes` / `Run.writesPlain`: payloads are plain after each write of the program
    if and only if no write sets bit 0 of an aligned word. What the heap itself moves and
    fills makes no difference.
  - `Run.recognizes`: then an address is accepted if and only if the program holds it. Any other
    is turned down for the first reason that applies, and releasing it changes nothing.
-/

import BoundaryTag.Proofs.Stale

namespace BoundaryTag

section Plain

variable {A : Type} [Arena A]

/-- Bit 0 is clear in the aligned words of every payload. -/
def World.Plain (w : World A) : Prop :=
  ∀ p ∈ w.holds, ∀ n, Heap.usableSize p w.heap = .ok (some n) w.heap →
    ∀ a, a % 8 = 0 → p ≤ a → a + 8 ≤ p + n → w.heap.store.memory.word a % 2 = 0

/-- Payloads were plain after each of the program's own writes. -/
def WritesPlain (arena : A) (memory : Memory) (config : Config)
    (past : List (Call × Answer)) : Prop :=
  ∀ before addr bytes answer w, before ++ [(.store addr bytes, answer)] <+: past →
    Run arena memory config (before ++ [(.store addr bytes, answer)]) w → w.Plain

/-- What is wrong with an address at which no block begins. -/
def Heap.faultAt (h : Heap A) (addr : Nat) : AddressFault :=
  if addr < h.firstBlock ∨ h.bounds.high ≤ addr then .outOfBounds else if addr % 8 ≠ 0 then
    .misaligned else .notAllocated

variable {arena : A} {memory : Memory} {config : Config} {past rest : List (Call × Answer)}

theorem WritesPlain.before (h : WritesPlain arena memory config (past ++ rest)) :
    WritesPlain arena memory config past :=
  fun before addr bytes answer w hle =>
    h before addr bytes answer w (hle.trans (List.prefix_append _ _))

end Plain

section Runs

variable {A : Type} [Arena A] [LawfulArena A] {w w' : World A} {row : List Tile} {idx : Index}
  {call : Call} {answer : Answer} {arena : A} {memory : Memory} {config : Config}
  {past : List (Call × Answer)}

/-- Headers lie outside of payloads. -/
theorem World.Sound.plain (hw : w.Sound row idx) (hm : w.Unmistakable) : w.Plain := by
  intro p hp n husable a ha hle hlt
  obtain ⟨e, he, rfl⟩ := (hw.holds p).mp hp
  rw [Heap.usableSize_live hw.laid he] at husable
  obtain rfl := Option.some.inj (EStateM.Result.ok.inj husable).1
  obtain ⟨-, h32, -⟩ := hw.laid.live_bounds he
  obtain ⟨hhigh, hnone⟩ := hw.laid.headless he (q := a + 8) (by omega) (by omega)
  rcases Nat.mod_two_eq_zero_or_one (w.heap.store.memory.word a) with heven | hodd
  · exact heven
  · exact ((headed_heap.mp (hw.unmistakable_iff.mp hm) a ha hodd).elim hhigh hnone).elim

/-- A write after which payloads are plain sets bit 0 of no aligned word. -/
theorem World.Sound.even (hw : w.Sound row idx) (hs : w.Step call answer w')
    (hplain : ∀ addr bytes, call = .store addr bytes → w'.Plain) :
    call.Even := by
  cases call with
  | store addr bytes =>
    obtain ⟨row', idx', hw', ht⟩ := hw.step hs
    cases ht with
    | still _ _ hd => exact absurd rfl (hd.not_write addr bytes)
    | @written e addr bytes he hle hlen hh' =>
      intro i b hb h8
      obtain ⟨hi, rfl⟩ := List.getElem?_eq_some_iff.mp hb
      obtain ⟨t, ht, -, rfl, -⟩ := hw.laid.tiled.mem_live.mp he
      have hsize := (hw.laid.tiled.row.bounds ht).2.2.1
      have hbp := hw.laid.tiled.row.aligned hw.laid.tiled.aligned ht
      simp only [Tile.entry] at hle hlen
      have hword := hplain addr bytes rfl t.bp ((hw'.holds _).mpr ⟨_, he, rfl⟩) _
          (Heap.usableSize_live hw'.laid he) (addr + i) h8
        (Nat.le_add_right_of_le hle) (by simp only [Tile.entry]; omega)
      rwa [hh', Heap.withMemory, Memory.word_mod_two, Memory.byte_store,
        if_pos (Nat.le_add_right _ _), Nat.add_sub_cancel_left, hb, Option.getD_some] at hword
  | _ => trivial

theorem Run.even_writes (hs : LawfulArena.Sane arena) (hr : Run arena memory config past w)
    (hplain : WritesPlain arena memory config past) :
    ∀ c ∈ past, c.1.Even := by
  induction hr with
  | start => exact fun c hc => absurd hc List.not_mem_nil
  | @step past w w' call answer hr hstep ih =>
    obtain ⟨row, idx, hw⟩ := hr.sound hs
    intro c hc
    rcases List.mem_append.mp hc with hc | hc
    · exact ih hplain.before c hc
    · cases List.mem_singleton.mp hc
      refine hw.even hstep fun addr bytes hcall => ?_
      subst hcall
      exact hplain past addr bytes answer w' List.prefix_rfl (.step hr hstep)

/-- The converse, if fresh memory has bit 0 clear. -/
theorem Run.writesPlain (hs : LawfulArena.Sane arena)
    (hfresh : ∀ a, Arena.high arena ≤ a → a % 8 = 0 → memory.word a % 2 = 0)
    (heven : ∀ c ∈ past, c.1.Even) : WritesPlain arena memory config past := by
  intro before addr bytes answer w hle hr
  obtain ⟨row, idx, hw⟩ := hr.sound hs
  exact hw.plain (hr.unmistakable hs hfresh fun c hc => heven c (hle.subset hc))

/-- Without a word that could be taken for the header of another block, just the addresses of
    live blocks are accepted. -/
theorem World.Sound.checkAddress (hw : w.Sound row idx) (hm : w.Unmistakable) {addr : Nat}
    (hno : addr ∉ w.holds) :
    Heap.checkAddress addr w.heap =
      .error (.refused (.invalidAddress addr (w.heap.faultAt addr))) w.heap := by
  rw [Heap.checkAddress_eq hw.laid, Heap.faultAt]
  split
  · rfl
  next hin =>
  split
  · rfl
  next h8 =>
  have hplaces : w.heap.Places addr := ⟨by omega, by omega, by omega⟩
  have hunread : ¬ w.heap.ReadsAllocated addr := by
    intro hreads
    have hlow := hw.laid.tiled.low_le
    have hodd : w.heap.store.memory.word (addr - 8) % 2 = 1 := beq_iff_eq.mp hreads.1
    have hhead := headed_heap.mp hm (addr - 8) (by omega) hodd
    rw [Nat.sub_add_cancel (by omega)] at hhead
    rcases hhead with htop | hbelow | hheld
    · exact absurd htop (Nat.ne_of_lt hplaces.lt_high)
    · exact hin (.inl hbelow)
    · exact hno hheld
  have hrefused := (hw.laid.judge hplaces).2 hunread
  rw [Heap.checkAddress_eq hw.laid, if_neg hin, if_neg h8] at hrefused
  exact hrefused

/-- On fresh memory with bit 0 clear, and with payloads plain after each write of the program,
    an address is accepted if and only if the program holds it. Any other is turned down and
    releasing it changes nothing, as releasing null does. -/
theorem Run.recognizes (hs : LawfulArena.Sane arena)
    (hfresh : ∀ a, Arena.high arena ≤ a → a % 8 = 0 → memory.word a % 2 = 0)
    (hr : Run arena memory config past w) (hplain : WritesPlain arena memory config past)
    (addr : Nat) :
    (Heap.checkAddress addr w.heap = .ok () w.heap ↔ addr ∈ w.holds) ∧
    (addr ∉ w.holds →
      Heap.checkAddress addr w.heap =
        .error (.refused (.invalidAddress addr (w.heap.faultAt addr))) w.heap ∧
      (Heap.tryRelease addr w.heap = if addr = 0 then .ok () w.heap
        else .error (.refused (.invalidAddress addr (w.heap.faultAt addr))) w.heap) ∧
      ∃ h', Heap.release addr w.heap = .ok () h' ∧ w.heap.Same h') := by
  obtain ⟨row, idx, hw⟩ := hr.sound hs
  have hm := hr.unmistakable hs hfresh (hr.even_writes hs hplain)
  refine ⟨⟨fun haccepted => ?_, fun hheld => ?_⟩, fun hno => ?_⟩
  · by_contra hno
    rw [hw.checkAddress hm hno] at haccepted
    cases haccepted
  · obtain ⟨e, he, rfl⟩ := (hw.holds addr).mp hheld
    exact Heap.checkAddress_live hw.laid he
  · have hrefused := hw.checkAddress hm hno
    refine ⟨hrefused, ?_⟩
    split
    next h0 =>
      subst h0
      exact ⟨rfl, w.heap, rfl, Heap.Same.refl _⟩
    next h0 =>
      have hrun := Heap.tryRelease_rejected hrefused h0
      exact ⟨hrun, Heap.release_refused hrun (Heap.Same.refl _)⟩

end Runs

/-- A block moved when it had to grow, and was written to. Its old address is turned down,
    as are two inside of it. -/
theorem Run.recognizes_page : ∃ w, Run page .blank {}
      [(.allocate 24, .ok (some 4128)), (.allocate 24, .ok (some 4160)),
        (.reallocate 4128 40, .ok (some 4192)), (.store 4192 [2, 1], .ok none)] w ∧
    Heap.checkAddress 4192 w.heap = .ok () w.heap ∧
    Heap.checkAddress 4128 w.heap = .error (.refused (.invalidAddress 4128 .notAllocated)) w.heap ∧
    Heap.checkAddress 4200 w.heap = .error (.refused (.invalidAddress 4200 .notAllocated)) w.heap ∧
    Heap.checkAddress 4193 w.heap = .error (.refused (.invalidAddress 4193 .misaligned)) w.heap ∧
    ∃ h', Heap.release 4128 w.heap = .ok () h' ∧ w.heap.Same h' := by
  obtain ⟨w, hr, hholds, hlook⟩ :=
    Run.of_trial page .blank {} [.allocate 24, .allocate 24, .reallocate 4128 40]
    [.ok (some 4128), .ok (some 4160), .ok (some 4192)]
    (fun h => (Heap.answer? (Heap.usableSize 4192) h, h.faultAt 4128, h.faultAt 4200,
      h.faultAt 4193))
    (some (some 40), .notAllocated, .notAllocated,
      .misaligned) (by decide +kernel) (by decide +kernel)
  obtain ⟨husable, hlook⟩ := Prod.mk.inj hlook
  obtain ⟨hold, hlook⟩ := Prod.mk.inj hlook
  obtain ⟨hinner, hodd⟩ := Prod.mk.inj hlook
  obtain ⟨h₁, husable⟩ := Heap.answer_some husable
  obtain rfl := (Heap.looks_usableSize 4192).ok husable
  have hheld : w.holds = {4160, 4192} := by
    rw [hholds]
    decide +kernel
  have hpermits : w.Permits (.store 4192 [2, 1]) := ⟨4192, by simp [hheld], 40, husable,
      by decide, by decide⟩
  have hstored : Run page .blank {} _ ⟨w.heap.withMemory (w.heap.store.memory.store 4192 [2, 1]),
      w.holds⟩ := hr.step (.mk hpermits rfl)
  have hfresh : ∀ a, Arena.high page ≤ a → a % 8 = 0 → Memory.blank.word a % 2 = 0 :=
    fun a _ _ => by rw [Memory.word_blank]
  have hplain : WritesPlain page .blank {}
      [(.allocate 24, .ok (some 4128)), (.allocate 24, .ok (some 4160)),
      (.reallocate 4128 40, .ok (some 4192)), (.store 4192 [2, 1], .ok none)] := by
    refine Run.writesPlain trivial hfresh fun c hc => ?_
    simp only [List.mem_cons, List.not_mem_nil, or_false] at hc
    rcases hc with rfl | rfl | rfl | rfl
    case inr.inr.inr =>
      -- the second byte is no word's first
      rintro (_ | _ | i) b hb h8
      · cases hb
        rfl
      · cases h8
      · cases hb
    all_goals trivial
  have hall := Run.recognizes trivial hfresh hstored hplain
  obtain ⟨hstale, -, hrelease⟩ := (hall 4128).2 (by simp [hheld])
  refine ⟨_, hstored, (hall 4192).1.mpr (by simp [hheld]), ?_, ?_, ?_, hrelease⟩
  · exact hold ▸ hstale
  · exact hinner ▸ ((hall 4200).2 (by simp [hheld])).1
  · exact hodd ▸ ((hall 4193).2 (by simp [hheld])).1

end BoundaryTag
