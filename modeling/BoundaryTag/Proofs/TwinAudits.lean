/-
  BoundaryTag.Proofs.TwinAudits — the same verdict in two places.

  An audit that is told twins ends alike: with the same tally, or with the same corruption at twins.

  Proved: so it is for the physical walk (`Regions.walkFrom`), for the walk along the lists
  (`Regions.checkList`) and for both (`Regions.audit`); and counting the blocks without checking
  them comes to the same statistics (`Regions.tally`).
-/

import BoundaryTag.Proofs.Audited
import BoundaryTag.Proofs.Twins

namespace BoundaryTag.Bases

/-- The same finding, at twins. -/
inductive Found (z : Bases) : Corruption → Corruption → Prop
  | prologue {header footer : Nat} : Found z (.prologue header footer) (.prologue header footer)
  | epilogue {p q header : Nat} : z.Twin p q → Found z (.epilogue p header) (.epilogue q header)
  | misaligned {p q : Nat} : z.Twin p q → Found z (.misaligned p) (.misaligned q)
  | outOfBounds {p q size : Nat} : z.Twin p q → Found z (.outOfBounds p size) (.outOfBounds q size)
  | undersized {p q size : Nat} : z.Twin p q → Found z (.undersized p size) (.undersized q size)
  | tagMismatch {p q header footer : Nat} :
      z.Twin p q → Found z (.tagMismatch p header footer) (.tagMismatch q header footer)
  | prevAlloc {p q : Nat} {recorded actual : Bool} :
      z.Twin p q → Found z (.prevAlloc p recorded actual) (.prevAlloc q recorded actual)
  | uncoalesced {p q p' q' : Nat} : z.Twin p q → z.Twin p' q' →
      Found z (.uncoalesced p p') (.uncoalesced q q')
  | linkOutOfBounds {p q bucket : Nat} :
      z.Twin p q → Found z (.linkOutOfBounds bucket p) (.linkOutOfBounds bucket q)
  | allocatedInList {p q bucket : Nat} :
      z.Twin p q → Found z (.allocatedInList bucket p) (.allocatedInList bucket q)
  | linkAsymmetry {p q bucket : Nat} :
      z.Twin p q → Found z (.linkAsymmetry bucket p) (.linkAsymmetry bucket q)
  | wrongBucket {p q size bucket expected : Nat} : z.Twin p q →
      Found z (.wrongBucket p size bucket expected) (.wrongBucket q size bucket expected)
  | unsorted {p q bucket : Nat} : z.Twin p q → Found z (.unsorted bucket p) (.unsorted bucket q)
  | freeCount {inHeap inIndex : Nat} :
      Found z (.freeCount inHeap inIndex) (.freeCount inHeap inIndex)

/-- Both checks passed, with answers that are related, or both found the same. -/
inductive Judged {α β : Type} (z : Bases) (R : α → β → Prop) : Except Corruption α →
    Except Corruption β → Prop
  | ok {a : α} {b : β} : R a b → Judged z R (.ok a) (.ok b)
  | error {c d : Corruption} : z.Found c d → Judged z R (.error c) (.error d)

/-- Two checks end alike. -/
def Judges {α β : Type} (z : Bases) (R : α → β → Prop) (x : Checking α) (y : Checking β) : Prop :=
  z.Reads (z.Judged R) x.run y.run

/-- The walks have passed the same blocks. -/
structure Walks (z : Bases) (w v : Audit.Walk) : Prop where
  stats : w.stats = v.stats
  prevAlloc : w.prevAlloc = v.prevAlloc
  prevFree : z.Twins w.prevFree v.prevFree

variable {z : Bases} {α β γ δ : Type} {R : α → β → Prop} {Q : γ → δ → Prop} {p q : Nat}
  {a b : Option Nat} {m n : Memory} {r s : Region}

theorem Same.tag_eq {u v : Block} (h : z.Same u v) : u.tag = v.tag := by cases h <;> rfl

theorem Same.twin {u v : Block} (h : z.Same u v) : z.Twin u.bp v.bp := by cases h <;> assumption

theorem Walks.pass {w v : Audit.Walk} (hw : z.Walks w v) {u u' : Block} (h : z.Same u u') :
    z.Walks (w.pass u) (v.pass u') := by
  refine ⟨?_, congrArg Tag.alloc h.tag_eq, ?_⟩
  · simp only [Audit.Walk.pass, hw.stats, h.tag_eq]
  · simp only [Audit.Walk.pass, h.tag_eq]
    split
    · exact .none
    · exact .some h.twin

theorem alike_isAligned (h : z.Twin p q) : Alike Eq (isAligned p) (isAligned q) := by
  have := z.here_aligned
  have := z.there_aligned
  by_cases hp : p + wordSize < wordLimit
  · by_cases hq : q + wordSize < wordLimit
    · rw [isAligned_eq hp, isAligned_eq hq]
      simp only [wordSize] at *
      exact .ok (by rw [Bool.eq_iff_iff, beq_iff_eq, beq_iff_eq]; omega)
    · rw [isAligned.eq_def q, align_overflow (Nat.not_lt.mp hq)]
      exact .there
  · rw [isAligned.eq_def p, align_overflow (Nat.not_lt.mp hp)]
    exact .here

namespace Judges

variable {x : Checking α} {y : Checking β} {f : α → Checking γ} {g : β → Checking δ}

protected theorem pure {a : α} {b : β} (h : R a b) : z.Judges R (pure a) (pure b) :=
  fun _ _ _ => .ok (.ok h)

protected theorem throw {c d : Corruption} (h : z.Found c d) : z.Judges R (throw c) (throw d) :=
  fun _ _ _ => .ok (.error h)

theorem bind (hx : z.Judges R x y) (hf : ∀ a b, R a b → z.Judges Q (f a) (g b)) :
    z.Judges Q (x >>= f) (y >>= g) := by
  intro m n hm
  have hrun : (x >>= f).run m = (x.run m).bind fun a => ExceptT.bindCont f a m := rfl
  have hrun' : (y >>= g).run n = (y.run n).bind fun b => ExceptT.bindCont g b n := rfl
  rw [hrun, hrun']
  refine (hx m n hm).bind fun u v huv => ?_
  cases huv with
  | ok h => exact hf _ _ h m n hm
  | error h => exact .ok (.error h)

theorem bind_eq {y : Checking α} {g : α → Checking δ} (hx : z.Judges Eq x y)
    (hf : ∀ a, z.Judges Q (f a) (g a)) :
    z.Judges Q (x >>= f) (y >>= g) :=
  hx.bind fun a _ h => h ▸ hf a

theorem halt {c d : Corruption} (h : z.Found c d) :
    z.Judges Q ((throw c : Checking α) >>= f) ((throw d : Checking β) >>= g) :=
  fun _ _ _ => .ok (.error h)

theorem ite {c d : Prop} [Decidable c] [Decidable d] {x' : Checking α} {y' : Checking β}
    (hcd : c ↔ d) (hx : z.Judges R x y) (hx' : z.Judges R x' y') :
    z.Judges R (if c then x else x') (if d then y else y') := by
  by_cases hc : c
  · rw [if_pos hc, if_pos (hcd.mp hc)]
    exact hx
  · rw [if_neg hc, if_neg (fun hd => hc (hcd.mpr hd))]
    exact hx'

theorem reading {x : Reading α} {y : Reading β} (h : z.Reads R x y) :
    z.Judges R (liftM x) (liftM y) := by
  intro m n hm
  have hrun : (liftM x : Checking α).run m = (x m).bind fun a => .ok (.ok a) := rfl
  have hrun' : (liftM y : Checking β).run n = (y n).bind fun b => .ok (.ok b) := rfl
  rw [hrun, hrun']
  exact (h m n hm).bind fun a b hab => .ok (.ok hab)

theorem except {x : Except Fault α} {y : Except Fault β} (h : Alike R x y) :
    z.Judges R (liftM x) (liftM y) :=
  reading (x := liftM x) (y := liftM y) (.lift h)

/-- A header that is read where there may be none. -/
theorem read_header {f : Nat → Checking α} {g : Nat → Checking β} (hz : z.Regions r s)
    (h : z.Twin p q) (hf : ∀ w, z.Judges R (f w) (g w)) :
    z.Judges R (do let word ← r.read (← r.header p); f word)
      (do let word ← s.read (← s.header q); g word) := by
  have hrun (r : Region) (p : Nat) {α : Type} (f : Nat → Checking α) :
      (do let word ← r.read (← r.header p); f word : Checking α).run =
      (do let word ← r.read (← r.header p); (f word).run : Reading (Except Corruption α)) :=
    (ExceptT.run_bind_lift (liftM (r.header p) : Reading Nat) _).trans
      (bind_congr fun a => ExceptT.run_bind_lift (r.read a) f)
  unfold Judges
  rw [hrun, hrun]
  exact hz.read_located (.lift (hz.header h)) hf

end Judges

namespace Regions

/-! ## Blocks -/

/-- Two blocks that passed: the same ones, and the ones above are twins. -/
def Past (z : Bases) {r s : Region} {p q : Nat} (u : Audit.Passed r p)
    (v : Audit.Passed s q) : Prop :=
  z.Same u.block v.block ∧ z.Twin u.next v.next

theorem inspect (hz : z.Regions r s) {w v : Audit.Walk} (hw : z.Walks w v) (h : z.Twin p q) :
    z.Judges (Option.Rel (Past z)) (Audit.inspect r w p) (Audit.inspect s v q) := by
  have hhigh := hz.high
  unfold Audit.inspect
  refine .bind_eq (.except (alike_isAligned h)) fun aligned =>
    .ite Iff.rfl (.halt (.misaligned h)) ?_
  refine .bind_eq (.reading (hz.tag h)) fun tag => .ite Iff.rfl (.pure .none) ?_
  by_cases hsmall : tag.size < minBlock
  · rw [dif_pos hsmall, dif_pos hsmall]
    exact .throw (.undersized h)
  by_cases hlong : r.high < p + tag.size
  · rw [dif_neg hsmall, dif_neg hsmall, dif_pos hlong, dif_pos (by omega)]
    exact .throw (.outOfBounds h)
  rw [dif_neg hsmall, dif_neg hsmall, dif_neg hlong, dif_neg (by omega)]
  refine .ite (by rw [hw.prevAlloc]) ?_ ?_
  · rw [hw.prevAlloc]
    exact .halt (.prevAlloc h)
  refine .bind (.reading (hz.block h)) fun u u' hu => ?_
  have hpast : Past z
    (⟨u, p + tag.size, by simp only [minBlock] at hsmall; omega, by omega⟩ : Audit.Passed r p)
      (⟨u', q + tag.size, by simp only [minBlock] at hsmall; omega, by omega⟩ : Audit.Passed s q) :=
      ⟨hu, by simp only; omega⟩
  cases hu with
  | allocated => exact .pure (.some hpast)
  | free h' hl =>
    refine .ite Iff.rfl (.halt (.tagMismatch h)) ?_
    have hfree := hw.prevFree
    generalize w.prevFree = first at hfree ⊢
    generalize v.prevFree = first' at hfree ⊢
    cases hfree with
    | none => exact .pure (.some hpast)
    | some hfirst => exact .halt (.uncoalesced hfirst h)

theorem close (hz : z.Regions r s) {w v : Audit.Walk} (hw : z.Walks w v) (h : z.Twin p q) :
    z.Judges Eq (Audit.close r w p) (Audit.close s v q) := by
  have hhigh := hz.high
  unfold Audit.close
  refine .read_header hz h fun header => .ite ?_ (.halt (.epilogue h)) (.pure hw.stats)
  rw [hw.prevAlloc]
  simp only [Bool.or_eq_true, bne_iff_ne, ne_eq]
  refine or_congr (not_congr ?_) Iff.rfl
  omega

theorem walkFrom (hz : z.Regions r s) {w v : Audit.Walk} (hw : z.Walks w v) (h : z.Twin p q)
    (hm : z.Mirror m n) :
    Alike (z.Judged Eq) (Audit.walkFrom r m w p).outcome (Audit.walkFrom s n v q).outcome := by
  induction hk : r.high - p using Nat.strongRecOn generalizing w v p q with
  | ind k ih =>
    subst hk
    have hinspect := hz.inspect hw h m n hm
    rw [Audit.walkFrom, Audit.walkFrom]
    generalize (Audit.inspect r w p).run m = x at hinspect ⊢
    generalize (Audit.inspect s v q).run n = y at hinspect ⊢
    cases hinspect with
    | fault => exact .fault
    | here => exact .here
    | there => exact .there
    | ok hjudged =>
      cases hjudged with
      | error hc => exact .ok (.error hc)
      | ok hpast =>
        cases hpast with
        | none => exact hz.close hw h m n hm
        | @some u v hpast =>
          have h1 := u.lt_next
          have h2 := u.next_le
          exact ih _ (by omega) (hw.pass hpast.1) hpast.2 rfl

theorem checkPrologue (hz : z.Regions r s) (h : z.Twin p q) :
    z.Judges Eq (Audit.checkPrologue r p) (Audit.checkPrologue s q) := by
  unfold Audit.checkPrologue
  refine .read_header hz h fun header => .bind_eq (.reading (hz.read h)) fun footer => ?_
  exact .ite Iff.rfl (.throw .prologue) (.pure rfl)

theorem walk (hz : z.Regions r s) (h : z.Twin p q) (hm : z.Mirror m n) :
    Alike (z.Judged Eq) (Audit.walk r m p).outcome (Audit.walk s n q).outcome := by
  have hprologue := hz.checkPrologue h m n hm
  rw [Audit.walk, Audit.walk]
  generalize (Audit.checkPrologue r p).run m = x at hprologue ⊢
  generalize (Audit.checkPrologue s q).run n = y at hprologue ⊢
  cases hprologue with
  | fault => exact .fault
  | here => exact .here
  | there => exact .there
  | ok hjudged =>
    cases hjudged with
    | error hc => exact .ok (.error hc)
    | ok =>
      refine hz.walkFrom ⟨?_, rfl, .none⟩ (by omega) hm
      rw [hz.span_eq]

/-! ## Lists -/

theorem checkList (hz : z.Regions r s) (h : z.Twin p q) (bucket inHeap inIndex lastSize : Nat)
    {prev prev' cur cur' : Option Nat} (hprev : z.Twins prev prev') (hcur : z.Twins cur cur') :
    z.Judges Eq (Audit.checkList r p bucket inHeap inIndex prev lastSize cur)
      (Audit.checkList s q bucket inHeap inIndex prev' lastSize cur') := by
  have hhigh := hz.high
  induction hk : inHeap - inIndex using Nat.strongRecOn generalizing inIndex lastSize prev
      prev' cur cur' with
  | ind k ih =>
    subst hk
    cases hcur with
    | none =>
      rw [Audit.checkList, Audit.checkList]
      exact .pure rfl
    | @some a b hab =>
      rw [Audit.checkList, Audit.checkList]
      by_cases hmore : inIndex < inHeap
      · rw [if_pos hmore, if_pos hmore]
        refine .ite ?_ (.halt (.linkOutOfBounds hab)) ?_
        · simp only [Bool.or_eq_true, decide_eq_true_eq]
          omega
        refine .bind_eq (.except (alike_isAligned hab)) fun aligned =>
          .ite Iff.rfl (.halt (.linkOutOfBounds hab)) ?_
        refine .bind_eq (.reading (hz.tag hab)) fun tag =>
          .ite Iff.rfl (.halt (.allocatedInList hab)) ?_
        refine .ite ?_ (.halt (.linkOutOfBounds hab)) ?_
        · simp only [Bool.or_eq_true, decide_eq_true_eq]
          omega
        refine .bind_eq (.except (.refl _)) fun expected =>
          .ite Iff.rfl (.halt (.wrongBucket hab)) (.ite Iff.rfl (.halt (.unsorted hab)) ?_)
        refine .bind (.reading (hz.links hab)) fun l l' hl =>
          .ite ?_ (.halt (.linkAsymmetry hab)) ?_
        · simp only [bne_iff_ne, ne_eq, Twins.eq_iff hl.2 hprev]
        · exact ih _ (by omega) (inIndex + 1) tag.size (.some hab) hl.1 rfl
      · rw [if_neg hmore, if_neg hmore]
        exact .throw .freeCount

theorem checkLists (hz : z.Regions r s) {bs bs' : Buckets} (hh : z.Heads bs bs') (h : z.Twin p q)
    (inHeap inIndex : Nat) (classes : List Nat) :
    z.Judges Eq (Audit.checkLists r bs p inHeap inIndex classes)
      (Audit.checkLists s bs' q inHeap inIndex classes) := by
  induction classes generalizing inIndex with
  | nil => exact .ite Iff.rfl (.throw .freeCount) (.pure rfl)
  | cons cls rest ih =>
    exact .bind_eq (hz.checkList h cls inHeap inIndex 0 .none (hh cls)) fun inIndex => ih inIndex

/-- Both walks. -/
theorem audit (hz : z.Regions r s) {bs bs' : Buckets} (hh : z.Heads bs bs') (h : z.Twin p q) :
    z.Judges Eq (Audit.validate r bs p) (Audit.validate s bs' q) := by
  unfold Audit.validate
  refine .bind_eq (y := ExceptT.mk fun m => (Audit.walk s m q).outcome)
    (fun m n hm => hz.walk h hm) fun stats => ?_
  exact .bind_eq (hz.checkLists hh (by omega) stats.freeBlocks 0 _) fun _ => .pure rfl

/-! ## Statistics -/

theorem tallyFrom (hz : z.Regions r s) (h : z.Twin p q) (stats : Stats) :
    z.Reads Eq (Stats.tallyFrom r p stats) (Stats.tallyFrom s q stats) := by
  have hhigh := hz.high
  induction hk : r.high - p using Nat.strongRecOn generalizing p q stats with
  | ind k ih =>
    subst hk
    rw [Stats.tallyFrom, Stats.tallyFrom]
    by_cases hmore : p < r.high
    · rw [if_pos hmore, if_pos (by omega)]
      refine .bind_eq (hz.tag h) fun tag => ?_
      by_cases h0 : tag.size = 0
      · rw [if_pos h0, if_pos h0]
        exact .pure rfl
      rw [if_neg h0, if_neg h0]
      by_cases hp : p + tag.size < wordLimit
      · by_cases hq : q + tag.size < wordLimit
        · rw [if_pos hp, if_pos hq]
          exact ih _ (by omega) (by omega) _ rfl
        · rw [if_neg hq]
          exact fun _ _ _ => .there
      · rw [if_neg hp]
        exact fun _ _ _ => .here
    · rw [if_neg hmore, if_neg (by omega)]
      exact .pure rfl

theorem tally (hz : z.Regions r s) (h : z.Twin p q) :
    z.Reads Eq (Stats.tally r p) (Stats.tally s q) := by
  unfold Stats.tally
  rw [hz.span_eq]
  exact hz.tallyFrom h _

end Regions

end BoundaryTag.Bases
