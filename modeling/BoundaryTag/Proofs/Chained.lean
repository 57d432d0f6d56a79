/-
  BoundaryTag.Proofs.Chained — free lists as their next links spell them.

  A walk along a list reads next links and headers and nothing else. `Chained` says that the
  next links lead through these blocks and then end; it asks nothing of the links back, of the
  bytes between the blocks, or of where the blocks lie. A chain that ends passes no address
  twice, so it is no longer than its region, and the bound on every walk is never met.

  Proved: the walks along a chain are those of its list (`Chained.findIn`, `Chained.membersFrom`,
  `Buckets.findFit_chained`).
-/

import BoundaryTag.Buckets
import BoundaryTag.Proofs.Threaded
import BoundaryTag.Region.Lemmas
import Mathlib.Order.Interval.Finset.Nat

namespace BoundaryTag

/-- From `cur` on the next links lead through these blocks and end behind the last. Each
    header has the block's size. -/
def Chained (r : Region) (m : Memory) : Option Nat → List Entry → Prop
  | cur, [] => cur = none
  | cur, e :: es =>
    cur = some e.bp ∧ r.size e.bp m = .ok e.size ∧ ∃ next, r.nextLink e.bp m = .ok next ∧
      Chained r m next es

namespace Chained

variable {r : Region} {m : Memory} {cur : Option Nat} {es xs ys : List Entry} {fuel : Nat}

theorem findIn (h : Chained r m cur es) (size : Nat) (hf : es.length ≤ fuel) :
    Buckets.findIn r size fuel cur m = .ok ((es.find? (size ≤ ·.size)).map Entry.bp) := by
  induction es generalizing cur fuel with
  | nil =>
    obtain rfl : cur = none := h
    cases fuel <;> rfl
  | cons e es ih =>
    obtain ⟨fuel, rfl⟩ : ∃ n, fuel = n + 1 :=
      ⟨fuel - 1, by simp only [List.length_cons] at hf; omega⟩
    obtain ⟨rfl, hsize, next, hnext, hrest⟩ := h
    simp only [Buckets.findIn, Reading.bind_apply, hnext, hsize, Except.bind]
    by_cases hs : size ≤ e.size
    · simp [hs, Reading.pure_apply]
    · simp only [hs, if_false]
      rw [ih hrest (by simp only [List.length_cons] at hf; omega)]
      simp [hs]

theorem membersFrom (h : Chained r m cur es) (hf : es.length ≤ fuel) :
    Buckets.membersFrom r fuel cur m = .ok (es.map Entry.bp) := by
  induction es generalizing cur fuel with
  | nil =>
    obtain rfl : cur = none := h
    cases fuel <;> rfl
  | cons e es ih =>
    obtain ⟨fuel, rfl⟩ : ∃ n, fuel = n + 1 :=
      ⟨fuel - 1, by simp only [List.length_cons] at hf; omega⟩
    obtain ⟨rfl, -, next, hnext, hrest⟩ := h
    simp only [Buckets.membersFrom, Reading.bind_apply, hnext, Except.bind]
    rw [ih hrest (by simp only [List.length_cons] at hf; omega)]
    rfl

theorem suffix (h : Chained r m cur (xs ++ ys)) : ∃ cur, Chained r m cur ys := by
  induction xs generalizing cur with
  | nil => exact ⟨cur, h⟩
  | cons x xs ih =>
    obtain ⟨-, -, next, -, hrest⟩ := h
    exact ih hrest

/-- A chain that ends passes no address twice: from the same address on, it would be as long as
    itself. -/
theorem nodup (h : Chained r m cur es) : (es.map Entry.bp).Nodup := by
  induction es generalizing cur with
  | nil => exact List.nodup_nil
  | cons e es ih =>
    have hwhole := h.membersFrom (Nat.le_refl _)
    obtain ⟨rfl, -, next, -, hrest⟩ := h
    refine List.nodup_cons.mpr ⟨?_, ih hrest⟩
    intro hin
    obtain ⟨f, hf, hbp⟩ := List.mem_map.mp hin
    obtain ⟨ys, zs, rfl⟩ := List.append_of_mem hf
    obtain ⟨cur, hsuffix⟩ := hrest.suffix
    have hpart := hsuffix.membersFrom
        (show (f :: zs).length ≤ (e :: (ys ++ f :: zs)).length by simp; omega)
    rw [hsuffix.1, hbp, hwhole] at hpart
    have := congrArg List.length (Except.ok.inj hpart)
    simp only [List.map_cons, List.map_append, List.length_cons, List.length_append,
      List.length_map] at this
    omega

theorem size (h : Chained r m cur es) {e : Entry} (he : e ∈ es) : r.size e.bp m = .ok e.size := by
  induction es generalizing cur with
  | nil => cases he
  | cons x es ih =>
    obtain ⟨-, hsize, next, -, hrest⟩ := h
    rcases List.mem_cons.mp he with rfl | he
    · exact hsize
    · exact ih hrest he

/-- The link of each block lies in the region. -/
theorem within (h : Chained r m cur es) {e : Entry} (he : e ∈ es) :
    r.low ≤ e.bp ∧ e.bp + 8 ≤ r.high := by
  induction es generalizing cur with
  | nil => cases he
  | cons x es ih =>
    obtain ⟨-, -, next, hnext, hrest⟩ := h
    rcases List.mem_cons.mp he with rfl | he
    · rcases hread : r.read e.bp m with fault | word
      · simp [Region.nextLink, Reading.bind_apply, hread, Except.bind] at hnext
      · obtain ⟨hlow, hhigh, -⟩ := Region.read_ok.mp hread
        exact ⟨hlow, hhigh⟩
    · exact ih hrest he

/-- A chain has no more blocks than its region has bytes. -/
theorem length_le (h : Chained r m cur es) : es.length ≤ r.span := by
  have hsub : (es.map Entry.bp).toFinset ⊆ Finset.Ico r.low r.high := by
    intro n hn
    obtain ⟨e, he, rfl⟩ := List.mem_map.mp (List.mem_toFinset.mp hn)
    have := h.within he
    exact Finset.mem_Ico.mpr ⟨by omega, by omega⟩
  have hcard := Finset.card_le_card hsub
  rwa [List.toFinset_card_of_nodup h.nodup, List.length_map, Nat.card_Ico] at hcard

end Chained

namespace Buckets

variable {r : Region} {m : Memory} {b : Buckets} {idx : Index} {c size : Nat} {cs : List Nat}

theorem members_chained (h : Chained r m (b.head c) (idx c)) :
    b.members r c m = .ok ((idx c).map Entry.bp) := h.membersFrom h.length_le

theorem findAmong_chained (h : ∀ c ∈ cs, Chained r m (b.head c) (idx c)) (size : Nat) :
    findAmong r b size cs m =
      .ok ((cs.findSome? fun c => (idx c).find? (size ≤ ·.size)).map Entry.bp) := by
  induction cs with
  | nil => rfl
  | cons c cs ih =>
    have hc := h c List.mem_cons_self
    simp only [findAmong, Reading.bind_apply, hc.findIn size hc.length_le, Except.bind,
      List.findSome?_cons]
    cases hfind : (idx c).find? (size ≤ ·.size) with
    | none => simpa using ih fun d hd => h d (List.mem_cons_of_mem c hd)
    | some e => rfl

theorem findFit_chained (h : ∀ c < bucketCount, Chained r m (b.head c) (idx c)) (h32 : 32 ≤ size) :
    b.findFit r size m = .ok ((idx.find size).map Entry.bp) := by
  have hc : classOf size = .ok (sizeClass size) := if_pos h32
  simp only [findFit, Reading.bind_apply, Reading.lift_apply, hc, Except.bind]
  exact findAmong_chained (fun c hc => h c (List.mem_range.mp (List.mem_of_mem_drop hc))) size

end Buckets

end BoundaryTag
