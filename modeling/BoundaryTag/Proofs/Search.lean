/-
  BoundaryTag.Proofs.Search — what a search through the index finds, and where that is filed again.

  A larger size never has a smaller class, so a search from the class of a size upwards passes no
  block that fits. The first block that fits is the first of its size in its list, and before that
  one a block of its size is filed: taken out and filed again, it is where it was (`Settled`).

  Proved: a search finds nothing only when nothing fits (`Index.find_none`), and a block that
  alone fits is found (`Index.find_only`); what is found is settled (`Index.settled_of_find`),
  and so is what was filed last (`Index.settled_insert`).
-/

import BoundaryTag.Proofs.Classes
import BoundaryTag.Proofs.FreeLists

namespace BoundaryTag

namespace Index

variable {idx : Index} {e : Entry} {size c : Nat}

/-! ## Searching -/

theorem mem_searched : c ∈ (List.range bucketCount).drop (sizeClass size) ↔
    sizeClass size ≤ c ∧ c < bucketCount := by
  have := sizeClass_lt size
  rw [List.range_eq_range', List.drop_range', List.mem_range'_1]
  omega

/-- No block that fits is passed over. -/
theorem find_none (hclass : ∀ c, ∀ e ∈ idx c, sizeClass e.size = c) (h : idx.find size = none)
    (he : e ∈ idx c) : e.size < size := by
  by_contra hle
  have hle : size ≤ e.size := Nat.not_lt.mp hle
  have hin : c ∈ (List.range bucketCount).drop (sizeClass size) := by
    rw [mem_searched, ← hclass c e he]
    exact ⟨sizeClass_mono hle, sizeClass_lt _⟩
  have hlist := List.findSome?_eq_none_iff.mp h c hin
  exact List.find?_eq_none.mp hlist e he (by simpa using hle)

/-- A block that alone fits is found. -/
theorem find_only (hclass : ∀ c, ∀ e ∈ idx c, sizeClass e.size = c) (he : e ∈ idx c)
    (hle : size ≤ e.size) (honly : ∀ d, ∀ f ∈ idx d, size ≤ f.size → f = e) :
    idx.find size = some e := by
  cases hfind : idx.find size with
  | none => exact absurd (find_none hclass hfind he) (Nat.not_lt.mpr hle)
  | some f =>
    obtain ⟨⟨d, hf⟩, hfit⟩ := mem_of_find hfind
    rw [honly d f hf hfit]

/-- The list that a block is found in, and that none before it fits. -/
theorem find_split (hclass : ∀ c, ∀ e ∈ idx c, sizeClass e.size = c) (h : idx.find size = some e) :
    size ≤ e.size ∧ ∃ pre post, idx (sizeClass e.size) = pre ++ e :: post ∧
    ∀ f ∈ pre, f.size < size := by
  obtain ⟨c, -, hc⟩ := List.exists_of_findSome?_eq_some h
  obtain ⟨hfit, pre, post, hsplit, hpre⟩ := List.find?_eq_some_iff_append.mp hc
  obtain rfl := hclass c e (by simp [hsplit])
  exact ⟨by simpa using hfit, pre, post, hsplit, fun f hf => by simpa using hpre f hf⟩

/-! ## Filing again -/

/-- Taken out and filed again, the block is where it was. -/
def Settled (idx : Index) (e : Entry) : Prop := (idx.erase e).insert e = idx

/-- Filing and taking out leaves the index as it was. -/
theorem erase_insert (hn : (idx.insert e (sizeClass e.size)).Nodup) :
    (idx.insert e).erase e = idx := by
  funext c
  by_cases hc : c = sizeClass e.size
  · subst hc
    simp only [insert, if_true] at hn
    have hout : e ∉ (slot (sizeClass e.size) e.size (idx (sizeClass e.size))).1 := fun hin =>
      (List.nodup_append.mp hn).2.2 e hin e List.mem_cons_self rfl
    simp only [erase, insert, if_true]
    rw [List.erase_append_right _ hout, List.erase_cons_head, slot_append]
  · simp only [erase, insert, if_neg hc]

theorem settled_insert (hn : (idx.insert e (sizeClass e.size)).Nodup) :
    (idx.insert e).Settled e := by
  rw [Settled, erase_insert hn]

theorem settled_of_slot {pre post : List Entry} (hsplit : idx (sizeClass e.size) = pre ++ e :: post)
    (hout : e ∉ pre) (hslot : slot (sizeClass e.size) e.size (pre ++ post) = (pre, post)) :
    idx.Settled e := by
  funext c
  by_cases hc : c = sizeClass e.size
  · subst hc
    simp only [insert, erase, if_true, hsplit, List.erase_append_right _ hout,
      List.erase_cons_head, hslot]
  · simp only [insert, erase, if_neg hc]

/-- What a search finds is the first of its size in its list. -/
theorem settled_of_find (hclass : ∀ c, ∀ e ∈ idx c, sizeClass e.size = c)
    (hsize : ∀ c, ∀ e ∈ idx c, e.size % 8 = 0 ∧ 32 ≤ e.size)
    (hasc : ∀ c, isExact c = false → (idx c).Pairwise fun e f => e.size ≤ f.size)
    (hn : ∀ c, (idx c).Nodup) (h : idx.find size = some e) : idx.Settled e := by
  obtain ⟨hfit, pre, post, hsplit, hpre⟩ := find_split hclass h
  have hmem : ∀ f ∈ pre ++ e :: post, f ∈ idx (sizeClass e.size) := fun f hf => hsplit ▸ hf
  have hout : e ∉ pre := fun hin =>
    (List.nodup_append.mp (hsplit ▸ hn (sizeClass e.size))).2.2 e hin e List.mem_cons_self rfl
  refine settled_of_slot hsplit hout ?_
  cases hex : isExact (sizeClass e.size) with
  | true =>
    -- all of the list have the size of `e`, which fits, so `e` is the head
    have hnil : pre = [] := by
      apply List.eq_nil_iff_forall_not_mem.mpr
      intro f hf
      have hf' := hmem f (List.mem_append_left _ hf)
      obtain ⟨he8, he32⟩ := hsize _ e (hmem e (by simp))
      obtain ⟨hf8, hf32⟩ := hsize _ f hf'
      have heq := sizeClass_exact he8 hf8 he32 hf32 hex (hclass _ f hf').symm
      have := hpre f hf
      omega
    rw [hnil, slot, if_pos hex, List.nil_append]
  | false =>
    have hsorted := hsplit ▸ hasc _ hex
    obtain ⟨-, hbehind, -⟩ := List.pairwise_append.mp hsorted
    have hlow : ∀ f ∈ pre, f.size < e.size := fun f hf => Nat.lt_of_lt_of_le (hpre f hf) hfit
    have hhigh : ∀ f ∈ post, ¬ f.size < e.size :=
      fun f hf => Nat.not_lt.mpr ((List.pairwise_cons.mp hbehind).1 f hf)
    rw [slot, hex, if_neg Bool.false_ne_true, List.takeWhile_append_of_pos (by simpa using hlow),
      List.dropWhile_append_of_pos (by simpa using hlow)]
    cases post with
    | nil => simp
    | cons f fs => simp [hhigh f List.mem_cons_self]

end Index

end BoundaryTag
