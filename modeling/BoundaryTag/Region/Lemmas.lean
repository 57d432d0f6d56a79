/-
  BoundaryTag.Region.Lemmas — what the codec computes, where it stays within the region.

  Each operation on a block whose header and words lie in the region has an answer, and the answer
  is a plain expression in the memory: reading a tag decodes the word below the block (`tag_eq`),
  writing a free block stores one word twice (`writeFree_eq`), and a link is a distance from the low
  end (`nextLink_eq`, `setNext_eq`).
-/

import BoundaryTag.Region

namespace BoundaryTag

/-! ## Steps one after the other -/

theorem Reading.bind_apply {α β : Type} (x : Reading α) (f : α → Reading β) (m : Memory) :
    (x >>= f) m = (x m).bind fun a => f a m := rfl

theorem Reading.pure_apply {α : Type} (a : α) (m : Memory) : (pure a : Reading α) m = .ok a := rfl

theorem Reading.lift_apply {α : Type} (x : Except Fault α) (m : Memory) :
    (liftM x : Reading α) m = x := rfl

theorem Writing.bind_apply {α β : Type} (x : Writing α) (f : α → Writing β) (m : Memory) :
    (x >>= f) m = match x m with
      | .ok a m => f a m
      | .error fault m => .error fault m := by
  cases hx : x m <;> simp only [bind, EStateM.bind, hx]

theorem Writing.lift_reading {α : Type} (x : Reading α) (m : Memory) :
    (liftM x : Writing α) m = match x m with
      | .ok a => .ok a m
      | .error fault => .error fault m := by
  cases hx : x m <;> simp only [liftM, monadLift, MonadLift.monadLift, hx]

theorem Writing.lift_except {α : Type} (x : Except Fault α) (m : Memory) :
    (liftM x : Writing α) m = match x with
      | .ok a => .ok a m
      | .error fault => .error fault m := by
  cases x <;> simp only [liftM, monadLift, MonadLift.monadLift]

namespace Region

variable {r : Region} {m : Memory} {bp addr : Nat}

/-! ## Words -/

theorem read_eq (h₁ : r.low ≤ addr) (h₂ : addr + 8 ≤ r.high) : r.read addr m = .ok (m.word addr) :=
  if_pos ⟨h₁, h₂⟩

theorem write_eq (h₁ : r.low ≤ addr) (h₂ : addr + 8 ≤ r.high) (w : Nat) :
    r.write addr w m = .ok () (m.setWord addr w) :=
  if_pos ⟨h₁, h₂⟩

theorem read_ok {w : Nat} : r.read addr m = .ok w ↔ r.low ≤ addr ∧ addr + 8 ≤ r.high ∧
    m.word addr = w := by
  unfold read
  by_cases h : r.HoldsWord addr
  · rw [if_pos h]
    exact ⟨fun hw => ⟨h.1, h.2, Except.ok.inj hw⟩, fun hw => by rw [hw.2.2]⟩
  · rw [if_neg h]
    exact ⟨fun hw => (nomatch hw), fun hw => absurd ⟨hw.1, hw.2.1⟩ h⟩

theorem write_outside (h : ¬ r.HoldsWord addr) (w : Nat) :
    r.write addr w m = .error (.outside addr) m := if_neg h

/-! ## Tags -/

theorem header_eq (h₁ : r.low + 8 ≤ bp) (h₂ : bp ≤ r.high) : r.header bp = .ok (bp - 8) := by
  rw [header, if_pos ⟨by omega, h₂⟩]
  exact checkedSub_ok (by simp only [wordSize]; omega)

theorem header_ok : r.header bp = .ok addr ↔ r.low ≤ bp ∧ bp ≤ r.high ∧ 8 ≤ bp ∧ addr = bp - 8 := by
  by_cases h : r.Contains bp
  · rw [header, if_pos h, checkedSub]
    by_cases h8 : wordSize ≤ bp
    · rw [if_pos h8]
      exact ⟨fun ha => ⟨h.1, h.2, h8, (Except.ok.inj ha).symm⟩, fun ha => by rw [ha.2.2.2]⟩
    · rw [if_neg h8]
      exact ⟨fun ha => (nomatch ha), fun ha => absurd ha.2.2.1 h8⟩
  · rw [header, if_neg h]
    exact ⟨fun ha => (nomatch ha), fun ha => absurd ⟨ha.1, ha.2.1⟩ h⟩

theorem tag_eq (h₁ : r.low + 8 ≤ bp) (h₂ : bp ≤ r.high) :
    r.tag bp m = .ok (Tag.decode (m.word (bp - 8))) := by
  simp only [tag, Reading.bind_apply, Reading.lift_apply, header_eq h₁ h₂, Except.bind,
    read_eq (show r.low ≤ bp - 8 by omega) (show bp - 8 + 8 ≤ r.high by omega)]
  rfl

theorem tag_ok {t : Tag} : r.tag bp m = .ok t ↔ r.low + 8 ≤ bp ∧ bp ≤ r.high ∧
    t = Tag.decode (m.word (bp - 8)) := by
  constructor
  · intro h
    simp only [tag, Reading.bind_apply, Reading.lift_apply] at h
    rcases hh : r.header bp with f | addr
    · rw [hh] at h
      cases h
    rcases hw : r.read addr m with f | w
    · simp only [hh, Except.bind, hw] at h
      cases h
    · simp only [hh, Except.bind, hw, Reading.pure_apply] at h
      obtain ⟨-, hhigh, h8, rfl⟩ := header_ok.mp hh
      obtain ⟨hlow, -, rfl⟩ := read_ok.mp hw
      exact ⟨by omega, hhigh, (Except.ok.inj h).symm⟩
  · rintro ⟨h₁, h₂, rfl⟩
    exact tag_eq h₁ h₂

/-- What a block's two links are read as, one by one. -/
theorem links_ok {next prev : Option Nat} (h : r.links bp m = .ok ⟨next, prev⟩) :
    r.nextLink bp m = .ok next ∧ r.prevLink bp m = .ok prev := by
  simp only [links, Reading.bind_apply] at h
  rcases hn : r.nextLink bp m with f | next'
  · rw [hn] at h
    cases h
  rcases hp : r.prevLink bp m with f | prev'
  · simp only [hn, Except.bind, hp] at h
    cases h
  · simp only [hn, Except.bind, hp, Reading.pure_apply] at h
    obtain ⟨rfl, rfl⟩ := Links.mk.inj (Except.ok.inj h)
    exact ⟨rfl, rfl⟩

theorem size_eq (h₁ : r.low + 8 ≤ bp) (h₂ : bp ≤ r.high) :
    r.size bp m = .ok (Tag.decode (m.word (bp - 8))).size := by
  simp only [size, Reading.bind_apply, tag_eq h₁ h₂]
  rfl

theorem above_eq (h₁ : r.low + 8 ≤ bp) (h₂ : bp ≤ r.high)
    (h₃ : bp + (Tag.decode (m.word (bp - 8))).size < wordLimit) :
    r.above bp m = .ok (bp + (Tag.decode (m.word (bp - 8))).size) := by
  simp only [above, Reading.bind_apply, size_eq h₁ h₂, Except.bind, Reading.lift_apply,
    checkedAdd_ok h₃]

theorem size_ok {n : Nat} (h : r.size bp m = .ok n) : n = (Tag.decode (m.word (bp - 8))).size := by
  rcases htag : r.tag bp m with f | tag
  · simp [size, Reading.bind_apply, htag, Except.bind] at h
  · obtain ⟨-, -, rfl⟩ := tag_ok.mp htag
    simp only [size, Reading.bind_apply, htag, Except.bind, Reading.pure_apply] at h
    exact (Except.ok.inj h).symm

theorem above_ok {next : Nat} (h : r.above bp m = .ok next) :
    next = bp + (Tag.decode (m.word (bp - 8))).size := by
  simp only [above, Reading.bind_apply, Reading.lift_apply] at h
  rcases hsize : r.size bp m with f | size
  · rw [hsize] at h
    cases h
  · simp only [hsize, Except.bind] at h
    rw [← size_ok hsize, eq_of_checkedAdd h]

theorem footer_ok (h : r.footer bp m = .ok addr) : 16 ≤ bp + (Tag.decode (m.word (bp - 8))).size ∧
    addr = bp + (Tag.decode (m.word (bp - 8))).size - 16 := by
  simp only [footer, Reading.bind_apply, Reading.lift_apply] at h
  rcases hsize : r.size bp m with f | size
  · rw [hsize] at h
    cases h
  rcases hstop : checkedAdd bp size with f | stop
  · simp only [hsize, Except.bind, hstop] at h
    cases h
  · simp only [hsize, Except.bind, hstop] at h
    rw [← size_ok hsize, ← eq_of_checkedAdd hstop]
    exact ⟨le_of_checkedSub h, eq_of_checkedSub h⟩

theorem footerTag_eq {tag : Tag} (htag : r.tag bp m = .ok tag) (h32 : 32 ≤ tag.size)
    (hlow : r.low ≤ bp) (hin : bp + tag.size ≤ r.high + 8) (hlt : bp + tag.size < wordLimit) :
    r.footerTag bp m = .ok (Tag.decode (m.word (bp + tag.size - 16))) := by
  have hsize : r.size bp m = .ok tag.size := by simp only [size, Reading.bind_apply, htag,
      Except.bind, Reading.pure_apply]
  simp only [footerTag,
    footer, Reading.bind_apply, hsize, Except.bind, Reading.lift_apply, checkedAdd_ok hlt,
    checkedSub_ok (show doubleWord ≤ bp + tag.size by simp only [doubleWord]; omega),
    doubleWord, read_eq (show r.low ≤ bp + tag.size - 16 by omega)
    (show bp + tag.size - 16 + 8 ≤ r.high by omega), Reading.pure_apply]

theorem writeAllocated_eq (h₁ : r.low + 8 ≤ bp) (h₂ : bp ≤ r.high) (size : Nat) (p : Bool) :
    r.writeAllocated bp size p m = .ok () (m.setWord (bp - 8) (Tag.encode ⟨size, p, true⟩)) := by
  simp only [writeAllocated, Writing.bind_apply, Writing.lift_except, header_eq h₁ h₂]
  exact write_eq (by omega) (by omega) _

theorem writeFree_eq {size : Nat} (h₁ : r.low + 8 ≤ bp) (h₂ : bp + size ≤ r.high + 8)
    (h₃ : 16 ≤ size) (h₄ : bp + size < wordLimit) (p : Bool) :
    r.writeFree bp size p m = .ok () ((m.setWord (bp - 8) (Tag.encode ⟨size, p, false⟩)).setWord
      (bp + size - 16) (Tag.encode ⟨size, p, false⟩)) := by
  simp only [writeFree,
    Writing.bind_apply, Writing.lift_except, header_eq h₁ (show bp ≤ r.high by omega),
    write_eq (show r.low ≤ bp - 8 by omega) (show bp - 8 + 8 ≤ r.high by omega), checkedAdd_ok h₄,
    checkedSub_ok (show doubleWord ≤ bp + size by simp only [doubleWord]; omega)]
  exact write_eq (by simp only [doubleWord]; omega) (by simp only [doubleWord]; omega) _

/-! ## Links -/

theorem decodeLink_eq {offset : Nat} (h : r.low + offset < wordLimit) :
    r.decodeLink offset = .ok (if offset = 0 then none else some (r.low + offset)) := by
  by_cases h₀ : offset = 0
  · rw [decodeLink, if_pos h₀, if_pos h₀]
  · rw [decodeLink, if_neg h₀, if_neg h₀, checkedAdd_ok h]
    rfl

theorem nextLink_eq (h₁ : r.low ≤ bp) (h₂ : bp + 8 ≤ r.high) (h₃ : r.low + m.word bp < wordLimit) :
    r.nextLink bp m = .ok (if m.word bp = 0 then none else some (r.low + m.word bp)) := by
  simp only [nextLink, Reading.bind_apply, read_eq h₁ h₂, Except.bind, Reading.lift_apply,
    decodeLink_eq h₃]

theorem prevLink_eq (h₁ : r.low ≤ bp + 8) (h₂ : bp + 16 ≤ r.high)
    (h₃ : r.low + m.word (bp + 8) < wordLimit) (h₄ : bp + 8 < wordLimit) :
    r.prevLink bp m =
      .ok (if m.word (bp + 8) = 0 then none else some (r.low + m.word (bp + 8))) := by
  simp only [prevLink, Reading.bind_apply, Reading.lift_apply, wordSize, checkedAdd_ok h₄,
    Except.bind, read_eq h₁ (show bp + 8 + 8 ≤ r.high by omega), decodeLink_eq h₃]

theorem encodeLink_eq (link : Option Nat) (h : ∀ bp, link = some bp → r.low ≤ bp) :
    r.encodeLink link = .ok (link.elim 0 (· - r.low)) := by
  cases link with
  | none => rfl
  | some bp => exact checkedSub_ok (h bp rfl)

theorem setNext_eq (h₁ : r.low ≤ bp) (h₂ : bp + 8 ≤ r.high) (next : Option Nat)
    (h₃ : ∀ bp, next = some bp → r.low ≤ bp) :
    r.setNext bp next m = .ok () (m.setWord bp (next.elim 0 (· - r.low))) := by
  simp only [setNext, Writing.bind_apply, Writing.lift_except, encodeLink_eq next h₃]
  exact write_eq h₁ h₂ _

theorem setPrev_eq (h₁ : r.low ≤ bp + 8) (h₂ : bp + 16 ≤ r.high) (prev : Option Nat)
    (h₃ : ∀ bp, prev = some bp → r.low ≤ bp) (h₄ : bp + 8 < wordLimit) :
    r.setPrev bp prev m = .ok () (m.setWord (bp + 8) (prev.elim 0 (· - r.low))) := by
  simp only [setPrev, Writing.bind_apply, Writing.lift_except, encodeLink_eq prev h₃, wordSize,
    checkedAdd_ok h₄]
  exact write_eq h₁ (by omega) _

end Region

end BoundaryTag
