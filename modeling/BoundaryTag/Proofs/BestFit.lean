/-
  BoundaryTag.Proofs.BestFit — a search finds the best fit of all lists.

  A list is searched in its order and the lists in the order of their classes, so the answer is
  the first block that fits, in the first list that has one. That this is a smallest of all that
  fit takes two facts: a larger size never has a smaller class, and within a list sizes ascend
  (in an exact class they are all the same).

  The memory around the lists may be anything, and so may the size: no block of it
  need exist. Headers say which size a block has. Whether they say that it is free
  makes no difference to a search.

  Proved: of all filed blocks that fit, the search answers with a smallest, and of those of that
  size with the nearest to the head of its list; it answers with none only if none fits
  (`Buckets.findFit_bestFit`).
-/

import BoundaryTag.Proofs.Runs
import BoundaryTag.Proofs.Search

namespace BoundaryTag

/-- The lists end, each holds blocks of its class, and those of the doubling classes ascend. -/
structure Indexed (r : Region) (m : Memory) (b : Buckets) (idx : Index) : Prop where
  chained : ∀ c, Chained r m (b.head c) (idx c)
  classed : ∀ c, ∀ e ∈ idx c, classOf e.size = .ok c
  ascending : ∀ c, isExact c = false → (idx c).Pairwise fun e f => e.size ≤ f.size

namespace Indexed

variable {r : Region} {m : Memory} {b : Buckets} {idx : Index} {c : Nat} {e : Entry}

theorem class_eq (h : Indexed r m b idx) (he : e ∈ idx c) : 32 ≤ e.size ∧ sizeClass e.size = c := by
  have hclass := h.classed c e he
  unfold classOf at hclass
  split at hclass
  · exact ⟨‹_›, Except.ok.inj hclass⟩
  · cases hclass

theorem size_mod (h : Indexed r m b idx) (he : e ∈ idx c) : e.size % 8 = 0 := by
  rw [Region.size_ok ((h.chained c).size he)]
  exact Tag.decode_size_mod _

end Indexed

/-- The lists of a laid heap. -/
theorem Files.indexed {r : Region} {s : Store} {idx : Index} (h : Files r s idx) :
    Indexed r s.memory s.buckets idx := by
  refine ⟨h.chained, ?_, h.ascending⟩
  intro c e he
  rw [classOf, if_pos (h.stands c e he).room, h.classed c e he]

namespace Index

variable {idx : Index} {e f : Entry} {size : Nat}

/-- A smallest of all filed blocks that have room for `size`, and of those the nearest
    to the head of its list. -/
structure BestFit (idx : Index) (size : Nat) (e : Entry) : Prop where
  fits : size ≤ e.size
  least : ∀ d, ∀ f ∈ idx d, size ≤ f.size → e.size ≤ f.size
  nearest : ∃ c pre post, idx c = pre ++ e :: post ∧ (∀ f ∈ pre, f.size ≠ e.size) ∧
  ∀ d, ∀ f ∈ idx d, f.size = e.size → d = c

theorem BestFit.mem (h : idx.BestFit size e) : ∃ c, e ∈ idx c := by
  obtain ⟨c, pre, post, hsplit, -⟩ := h.nearest
  exact ⟨c, by simp [hsplit]⟩

/-- There is only one. -/
theorem BestFit.unique (he : idx.BestFit size e) (hf : idx.BestFit size f) : e = f := by
  obtain ⟨c, pre, post, hsplit, hpre, honly⟩ := he.nearest
  obtain ⟨d, pre', post', hsplit', hpre', -⟩ := hf.nearest
  have hsize : f.size = e.size := Nat.le_antisymm (hf.least c e (by simp [hsplit]) he.fits)
      (he.least d f (by simp [hsplit']) hf.fits)
  obtain rfl := honly d f (by simp [hsplit']) hsize
  have hfirst : (idx d).find? (·.size == e.size) = some e :=
    List.find?_eq_some_iff_append.mpr ⟨by simp, pre, post, hsplit, by simpa using hpre⟩
  have hfirst' : (idx d).find? (·.size == e.size) = some f :=
    List.find?_eq_some_iff_append.mpr ⟨by simpa using hsize, pre', post', hsplit',
      by simpa [hsize] using hpre'⟩
  exact Option.some.inj (hfirst.symm.trans hfirst')

section Found

variable (hclass : ∀ c, ∀ e ∈ idx c, sizeClass e.size = c)
  (hsize : ∀ c, ∀ e ∈ idx c, e.size % 8 = 0 ∧ 32 ≤ e.size)
  (hasc : ∀ c, isExact c = false → (idx c).Pairwise fun e f => e.size ≤ f.size)

include hclass hsize hasc in
/-- Behind the block that was found its list has none that fits and is smaller. -/
theorem least_of_split {pre post : List Entry} (hsplit : idx (sizeClass e.size) = pre ++ e :: post)
    (hf : f ∈ e :: post) : e.size ≤ f.size := by
  have hmem : ∀ g ∈ e :: post, g ∈ idx (sizeClass e.size) :=
    fun g hg => hsplit ▸ List.mem_append_right pre hg
  cases hex : isExact (sizeClass e.size) with
  | true =>
    obtain ⟨he8, he32⟩ := hsize _ e (hmem e List.mem_cons_self)
    obtain ⟨hf8, hf32⟩ := hsize _ f (hmem f hf)
    exact Nat.le_of_eq (sizeClass_exact he8 hf8 he32 hf32 hex (hclass _ f (hmem f hf)).symm)
  | false =>
    obtain ⟨-, hbehind, -⟩ := List.pairwise_append.mp (hsplit ▸ hasc _ hex)
    rcases List.mem_cons.mp hf with rfl | hf
    · exact Nat.le_refl _
    · exact (List.pairwise_cons.mp hbehind).1 f hf

include hclass in
/-- No list before that of the block that was found has one that fits. -/
theorem find_first (h : idx.find size = some e) {d : Nat} (hd : d < sizeClass e.size)
    (hf : f ∈ idx d) : f.size < size := by
  by_contra hle
  have hle : size ≤ f.size := Nat.not_lt.mp hle
  obtain ⟨cs, c, ds, hlists, hfound, hbefore⟩ := List.findSome?_eq_some_iff.mp h
  obtain rfl := hclass c e (List.mem_of_find?_eq_some hfound)
  have hin : d ∈ (List.range bucketCount).drop (sizeClass size) := by
    rw [mem_searched, ← hclass d f hf]
    exact ⟨sizeClass_mono hle, sizeClass_lt _⟩
  have hsorted : ((List.range bucketCount).drop (sizeClass size)).Pairwise (· < ·) :=
    List.pairwise_lt_range.drop
  rw [hlists] at hin hsorted
  obtain ⟨-, hbehind, -⟩ := List.pairwise_append.mp hsorted
  rcases List.mem_append.mp hin with hin | hin
  · exact List.find?_eq_none.mp (hbefore d hin) f hf (by simpa using hle)
  · rcases List.mem_cons.mp hin with rfl | hin
    · exact Nat.lt_irrefl _ hd
    · have := (List.pairwise_cons.mp hbehind).1 d hin
      omega

include hclass hsize hasc in
theorem find_bestFit (h : idx.find size = some e) : idx.BestFit size e := by
  obtain ⟨hfit, pre, post, hsplit, hpre⟩ := find_split hclass h
  refine ⟨hfit, ?_, sizeClass e.size, pre, post, hsplit, ?_, ?_⟩
  · intro d f hf hle
    rcases Nat.lt_trichotomy d (sizeClass e.size) with hlt | rfl | hgt
    · exact absurd (find_first hclass h hlt hf) (Nat.not_lt.mpr hle)
    · rw [hsplit] at hf
      rcases List.mem_append.mp hf with hf | hf
      · exact absurd (hpre f hf) (Nat.not_lt.mpr hle)
      · exact least_of_split hclass hsize hasc hsplit hf
    · by_contra hlt
      have := sizeClass_mono (Nat.le_of_lt (Nat.not_le.mp hlt))
      rw [hclass d f hf] at this
      omega
  · intro f hf
    have := hpre f hf
    omega
  · intro d f hf hsame
    rw [← hclass d f hf, hsame]

end Found

end Index

/-- A search answers: with none just if no filed block fits, otherwise with the best fit. -/
theorem Buckets.findFit_bestFit {r : Region} {m : Memory} {b : Buckets} {idx : Index} {size : Nat}
    (h : Indexed r m b idx) (h32 : 32 ≤ size) :
    ∃ found, b.findFit r size m = .ok found ∧ (found = none ↔ ∀ c, ∀ e ∈ idx c, e.size < size) ∧
      ∀ bp, found = some bp ↔ ∃ e, e.bp = bp ∧ idx.BestFit size e := by
  have hclass : ∀ c, ∀ e ∈ idx c, sizeClass e.size = c := fun c e he => (h.class_eq he).2
  have hsize : ∀ c, ∀ e ∈ idx c, e.size % 8 = 0 ∧ 32 ≤ e.size := fun c e he => ⟨h.size_mod he,
      (h.class_eq he).1⟩
  have hbest : ∀ {e}, idx.find size = some e → idx.BestFit size e :=
    Index.find_bestFit hclass hsize h.ascending
  refine ⟨_, findFit_chained (fun c _ => h.chained c) h32, ?_, ?_⟩
  · rw [Option.map_eq_none_iff]
    constructor
    · intro hfind c e he
      exact Index.find_none hclass hfind he
    · intro hsmall
      rw [Option.eq_none_iff_forall_ne_some]
      intro e hfind
      obtain ⟨c, he⟩ := (hbest hfind).mem
      exact absurd (hbest hfind).fits (Nat.not_le.mpr (hsmall c e he))
  · intro bp
    rw [Option.map_eq_some_iff]
    constructor
    · rintro ⟨e, hfind, rfl⟩
      exact ⟨e, rfl, hbest hfind⟩
    · rintro ⟨e, rfl, he⟩
      cases hfind : idx.find size with
      | none =>
        obtain ⟨c, hin⟩ := he.mem
        exact absurd (Index.find_none hclass hfind hin) (Nat.not_lt.mpr he.fits)
      | some f => exact ⟨f, rfl, congrArg Entry.bp ((hbest hfind).unique he)⟩

/-- The list that 300 bytes would be filed in holds a block, but one too small. The next
    list has the best fit. -/
theorem Buckets.findFit_bestFit_page : ∃ w idx e, Run page .blank {}
      [(.allocate 280, .ok (some 4128)), (.allocate 24, .ok (some 4416)),
      (.allocate 900, .ok (some 4448)), (.allocate 24, .ok (some 5360)), (.release 4128, .ok none),
      (.release 4448, .ok none)] w ∧
    w.heap.store.buckets.members w.heap.bounds (sizeClass 300) w.heap.store.memory = .ok [4128] ∧
    Indexed w.heap.bounds w.heap.store.memory w.heap.store.buckets idx ∧ 32 ≤ 300 ∧
    w.heap.store.buckets.findFit w.heap.bounds 300 w.heap.store.memory = .ok (some 4448) ∧
    e.bp = 4448 ∧ idx.BestFit 300 e := by
  obtain ⟨w, hr, -, hlook⟩ := Run.of_trial page .blank {}
    [.allocate 280, .allocate 24, .allocate 900, .allocate 24, .release 4128, .release 4448]
    [.ok (some 4128), .ok (some 4416), .ok (some 4448), .ok (some 5360), .ok none, .ok none]
    (fun h => (h.store.buckets.members h.bounds (sizeClass 300) h.store.memory,
      h.store.buckets.findFit h.bounds 300 h.store.memory))
    (.ok [4128], .ok (some 4448)) (by decide +kernel) (by decide +kernel)
  obtain ⟨hmembers, hfind⟩ := Prod.mk.inj hlook
  obtain ⟨row, idx, hw⟩ := hr.sound trivial
  have hindexed := hw.laid.sound.filed.files.indexed
  obtain ⟨found, hfound, -, hbest⟩ := findFit_bestFit hindexed (show 32 ≤ 300 by decide)
  rw [hfind] at hfound
  obtain rfl := Except.ok.inj hfound
  obtain ⟨e, hbp, he⟩ := (hbest 4448).mp rfl
  exact ⟨w, idx, e, hr, hmembers, hindexed, by decide, hfind, hbp, he⟩

end BoundaryTag
