/-
  BoundaryTag.Proofs.FreeLists — the buckets of a store hold an index, and filing keeps it so.

  `Files` ties a store to its index: the heads and links spell the lists; each member's
  header has the size it is filed under, and its class is the list's; members are apart; the
  lists of the doubling classes ascend. It says nothing about the rest of the memory, so it
  holds of free blocks anywhere.

  Proved: the searches along links are the searches in the lists (`Files.findFit`,
  `Files.members`); `Store.insert` and `Store.remove` are `Index.insert` and `Index.erase`, and
  touch no byte but links of filed blocks (`Files.insert_spec`, `Files.remove_spec`).
-/

import BoundaryTag.Proofs.Chained
import BoundaryTag.Store.Lemmas

namespace BoundaryTag

/-- A block of this size stands in the region, its header says so, and its links have room. -/
structure Stands (r : Region) (m : Memory) (e : Entry) : Prop where
  low_le : r.low + 8 ≤ e.bp
  room : 32 ≤ e.size
  le_high : e.bp + e.size ≤ r.high + 8
  header : (Tag.decode (m.word (e.bp - 8))).size = e.size

structure Files (r : Region) (s : Store) (idx : Index) : Prop where
  heads : ∀ c, s.buckets.head c = firstOr (idx c) none
  threaded : ∀ c, Threaded r.low s.memory none (idx c) none
  stands : ∀ c, ∀ e ∈ idx c, Stands r s.memory e
  classed : ∀ c, ∀ e ∈ idx c, sizeClass e.size = c
  ascending : ∀ c, isExact c = false → (idx c).Pairwise fun e f => e.size ≤ f.size
  nodup : ∀ c, (idx c).Nodup
  apart : ∀ c, ∀ e ∈ idx c, ∀ d, ∀ f ∈ idx d, e = f ∨ e.Apart f
  high_lt : r.high < wordLimit

variable {r : Region} {s : Store} {m m' : Memory} {idx : Index}

/-! ## Members -/

namespace Stands

variable {e : Entry}

theorem size_eq (h : Stands r m e) : r.size e.bp m = .ok e.size := by
  have := h.low_le
  have := h.room
  have := h.le_high
  rw [Region.size_eq (by omega) (by omega), h.header]

theorem congr (h : Stands r m e) (hm : (Tag.decode (m'.word (e.bp - 8))).size = e.size) :
    Stands r m' e :=
  ⟨h.low_le, h.room, h.le_high, hm⟩

end Stands

/-- Blocks that stand in the region with their links, in a stretch of a list. -/
def Linked (r : Region) (m : Memory) (prev : Option Nat) (es : List Entry) : Prop :=
  Threaded r.low m prev es none ∧ (∀ e ∈ es, Stands r m e) ∧ r.high < wordLimit

namespace Linked

variable {prev : Option Nat} {es : List Entry} {e : Entry}

theorem tail (h : Linked r m prev (e :: es)) : Linked r m (some e.bp) es :=
  ⟨h.1.2.2, fun f hf => h.2.1 f (List.mem_cons_of_mem _ hf), h.2.2⟩

theorem bounds (h : ∀ e ∈ es, Stands r m e) (hlt : r.high < wordLimit) :
    ∀ n, firstOr es none = some n → r.low < n ∧ n < wordLimit := by
  intro n hn
  obtain ⟨e, he, rfl⟩ := mem_of_firstOr hn
  have := (h e he).low_le
  have := (h e he).room
  have := (h e he).le_high
  exact ⟨by omega, by omega⟩

theorem nextLink (h : Linked r m prev (e :: es)) : r.nextLink e.bp m = .ok (firstOr es none) := by
  have he := h.2.1 e List.mem_cons_self
  have := he.low_le
  have := he.room
  have := he.le_high
  have := h.2.2
  exact Region.nextLink_of_link h.1.1 (bounds h.tail.2.1 h.2.2) (by omega) (by omega) (by omega)

theorem prevLink (h : Linked r m prev (e :: es))
    (hp : ∀ n, prev = some n → r.low < n ∧ n < wordLimit) :
    r.prevLink e.bp m = .ok prev := by
  have he := h.2.1 e List.mem_cons_self
  have := he.low_le
  have := he.room
  have := he.le_high
  have := h.2.2
  exact Region.prevLink_of_link h.1.2.1 hp (by omega) (by omega) (by omega)

/-! ## Walks along the links -/

theorem slotFrom (h : Linked r m prev es) (size : Nat) {fuel : Nat} (hf : es.length ≤ fuel) :
    Buckets.slotFrom r size fuel prev (firstOr es none) m =
      .ok (lastOr prev (es.takeWhile (·.size < size)),
        firstOr (es.dropWhile (·.size < size)) none) := by
  induction es generalizing prev fuel with
  | nil => cases fuel <;> rfl
  | cons e es ih =>
    obtain ⟨fuel, rfl⟩ : ∃ n, fuel = n + 1 :=
      ⟨fuel - 1, by simp only [List.length_cons] at hf; omega⟩
    simp only [firstOr_cons, Buckets.slotFrom, Reading.bind_apply,
      (h.2.1 e List.mem_cons_self).size_eq, Except.bind]
    by_cases hs : size ≤ e.size
    · simp [hs, Nat.not_lt.mpr hs, Reading.pure_apply]
    · have hlt : e.size < size := Nat.not_le.mp hs
      simp only [hs, if_false, Reading.bind_apply, h.nextLink, Except.bind]
      rw [ih h.tail (by simp only [List.length_cons] at hf; omega)]
      simp [hlt]

theorem chained (h : Linked r m prev es) : Chained r m (firstOr es none) es := by
  induction es generalizing prev with
  | nil => rfl
  | cons e es ih => exact ⟨rfl, (h.2.1 e List.mem_cons_self).size_eq, _, h.nextLink, ih h.tail⟩

end Linked

namespace Files

variable {c : Nat} {e : Entry}

theorem linked (h : Files r s idx) (c : Nat) : Linked r s.memory none (idx c) :=
  ⟨h.threaded c, h.stands c, h.high_lt⟩

theorem bp_inj (h : Files r s idx) {c d : Nat} {e f : Entry} (he : e ∈ idx c) (hf : f ∈ idx d)
    (hbp : e.bp = f.bp) :
    e = f := by
  have := (h.stands c e he).room
  have := (h.stands d f hf).room
  rcases h.apart c e he d f hf with h | h
  · exact h
  · simp only [Entry.Apart] at h; omega

theorem nodup_bp (h : Files r s idx) (c : Nat) : ((idx c).map Entry.bp).Nodup :=
  (h.nodup c).map_on fun _ he _ hf => h.bp_inj he hf

theorem chained (h : Files r s idx) (c : Nat) : Chained r s.memory (s.buckets.head c) (idx c) := by
  rw [h.heads]
  exact (h.linked c).chained

theorem members (h : Files r s idx) (c : Nat) :
    s.buckets.members r c s.memory = .ok ((idx c).map Entry.bp) :=
  Buckets.members_chained (h.chained c)

theorem slot (h : Files r s idx) (c size : Nat) : s.buckets.slot r c size s.memory =
    .ok (lastOr none (Index.slot c size (idx c)).1,
      firstOr (Index.slot c size (idx c)).2 none) := by
  unfold Buckets.slot Index.slot
  cases isExact c with
  | true => simp [h.heads, Reading.pure_apply]
  | false =>
    simp only [Bool.false_eq_true, if_false, h.heads]
    exact (h.linked c).slotFrom size (h.chained c).length_le

/-- The links of a member name its neighbours. -/
theorem links (h : Files r s idx) {pre post : List Entry} (hsplit : idx c = pre ++ e :: post) :
    r.links e.bp s.memory = .ok ⟨firstOr post none, lastOr none pre⟩ := by
  have bounds : ∀ n, (∃ f ∈ pre ++ e :: post, f.bp = n) → r.low < n ∧ n < wordLimit := by
    rintro n ⟨f, hf, rfl⟩
    have hs := h.stands c f (hsplit ▸ hf)
    have := hs.low_le
    have := hs.room
    have := hs.le_high
    have := h.high_lt
    exact ⟨by omega, by omega⟩
  have he := h.stands c e (hsplit ▸ by simp)
  have := he.low_le
  have := he.room
  have := he.le_high
  have hlt := h.high_lt
  have ht := h.threaded c
  rw [hsplit, threaded_append] at ht
  obtain ⟨-, ht1, ht2, -⟩ := ht
  have hnext : ∀ n, firstOr post none = some n → r.low < n ∧ n < wordLimit := fun n hn => by
    obtain ⟨f, hf, hbp⟩ := mem_of_firstOr hn
    exact bounds n ⟨f, by simp [hf], hbp⟩
  have hprev : ∀ n, lastOr none pre = some n → r.low < n ∧ n < wordLimit := fun n hn => by
    obtain ⟨f, hf, hbp⟩ := (mem_of_lastOr hn).resolve_right (by simp)
    exact bounds n ⟨f, by simp [hf], hbp⟩
  exact Region.links_of_link ht1 ht2 hnext hprev (by omega) (by omega) (by omega)

theorem findFit (h : Files r s idx) {size : Nat} (h32 : 32 ≤ size) :
    s.buckets.findFit r size s.memory = .ok ((idx.find size).map Entry.bp) :=
  Buckets.findFit_chained (fun c _ => h.chained c) h32

/-- Nothing but headers and links of members matters. -/
theorem congr (h : Files r s idx)
    (hy : ∀ c, ∀ e ∈ idx c, ∀ y, e.bp ≤ y + 8 → y < e.bp + 16 → m'.byte y = s.memory.byte y) :
    Files r ⟨m', s.buckets⟩ idx := by
  refine ⟨h.heads, fun c => (h.threaded c).congr ?_, fun c e he => (h.stands c e he).congr ?_,
    h.classed, h.ascending,
    h.nodup, h.apart, h.high_lt⟩
  · intro e he
    exact ⟨Memory.word_congr fun y h1 h2 => hy c e he y (by omega) (by omega),
      Memory.word_congr fun y h1 h2 => hy c e he y (by omega) (by omega)⟩
  · have := (h.stands c e he).low_le
    rw [← (h.stands c e he).header]
    exact congrArg (fun w => (Tag.decode w).size)
      (Memory.word_congr fun y h1 h2 => hy c e he y (by omega) (by omega))

/-! ## A place in a list -/

/-- Parts of the list of `e`'s class, before and behind a place that `e` has or may take.
    Members other than `e` are apart from it. -/
structure Place (idx : Index) (e : Entry) (pre post : List Entry) : Prop where
  room : 32 ≤ e.size
  mem : ∀ f ∈ pre ++ post, f ∈ idx (sizeClass e.size)
  nodup : (pre ++ e :: post).Nodup
  apart : ∀ c, ∀ f ∈ idx c, f = e ∨ f.Apart e

namespace Place

variable {pre post : List Entry}

theorem pre_mem (h : Place idx e pre post) {f : Entry} (hf : f ∈ pre) :
    f ∈ idx (sizeClass e.size) :=
  h.mem f (List.mem_append_left _ hf)

theorem post_mem (h : Place idx e pre post) {f : Entry} (hf : f ∈ post) :
    f ∈ idx (sizeClass e.size) :=
  h.mem f (List.mem_append_right _ hf)

/-- All members of the list, with `e` in its place, are apart. -/
theorem pairwise (h : Place idx e pre post) (hf : Files r s idx) :
    (pre ++ e :: post).Pairwise Entry.Apart := by
  have hmem : ∀ f ∈ pre ++ e :: post, f = e ∨ f ∈ idx (sizeClass e.size) := by
    intro f hm
    rcases List.mem_append.mp hm with hm | hm
    · exact .inr (h.pre_mem hm)
    · exact (List.mem_cons.mp hm).imp_right h.post_mem
  refine h.nodup.imp_of_mem fun {f g} mf mg hne => ?_
  rcases hmem f mf with ef | mf <;> rcases hmem g mg with eg | mg
  · exact absurd (ef.trans eg.symm) hne
  · exact ef ▸ ((h.apart _ g mg).resolve_left fun eg => hne (ef.trans eg.symm)).symm
  · exact eg ▸ (h.apart _ f mf).resolve_left fun ef => hne (ef.trans eg.symm)
  · exact (hf.apart _ f mf _ g mg).resolve_left hne

theorem beside (h : Place idx e pre post) (hf : Files r s idx) {f : Entry} (hm : f ∈ pre ++ post) :
    32 ≤ f.size ∧ r.low + 8 ≤ f.bp ∧ f.bp + 24 ≤ r.high ∧ f.Apart e := by
  have hs := hf.stands _ f (h.mem f hm)
  have := hs.low_le
  have := hs.room
  have := hs.le_high
  have hpair := List.pairwise_append.mp (h.pairwise hf)
  refine ⟨hs.room, by omega, by omega, ?_⟩
  rcases List.mem_append.mp hm with hm | hm
  · exact hpair.2.2 f hm e List.mem_cons_self
  · exact ((List.pairwise_cons.mp hpair.2.1).1 f hm).symm

theorem prev_mem {p : Nat} (h : lastOr none pre = some p) : ∃ g ∈ pre, g.bp = p :=
  (mem_of_lastOr h).resolve_right (by simp)

/-- Left and right neighbour are apart from `e` and from each other. -/
theorem neighbours (h : Place idx e pre post) (hf : Files r s idx) :
    (∀ p, lastOr none pre = some p → r.low + 8 ≤ p ∧ p + 24 ≤ r.high ∧
      (p + 32 ≤ e.bp ∨ e.bp + 32 ≤ p)) ∧
    (∀ n, firstOr post none = some n → r.low + 8 ≤ n ∧ n + 24 ≤ r.high ∧
      (n + 32 ≤ e.bp ∨ e.bp + 32 ≤ n)) ∧
    ∀ p n, lastOr none pre = some p → firstOr post none = some n → p + 32 ≤ n ∨ n + 32 ≤ p := by
  have he := h.room
  refine ⟨?_, ?_, ?_⟩
  · intro p hp
    obtain ⟨f, hm, rfl⟩ := prev_mem hp
    obtain ⟨h1, h2, h3, h4⟩ := h.beside hf (List.mem_append_left post hm)
    simp only [Entry.Apart] at h4
    exact ⟨h2, h3, by omega⟩
  · intro n hn
    obtain ⟨f, hm, rfl⟩ := mem_of_firstOr hn
    obtain ⟨h1, h2, h3, h4⟩ := h.beside hf (List.mem_append_right pre hm)
    simp only [Entry.Apart] at h4
    exact ⟨h2, h3, by omega⟩
  · intro p n hp hn
    obtain ⟨f, mf, rfl⟩ := prev_mem hp
    obtain ⟨g, mg, rfl⟩ := mem_of_firstOr hn
    have h1 := (h.beside hf (List.mem_append_left post mf)).1
    have h2 := (h.beside hf (List.mem_append_right pre mg)).1
    have h3 := (List.pairwise_append.mp (h.pairwise hf)).2.2 f mf g (List.mem_cons_of_mem _ mg)
    simp only [Entry.Apart] at h3
    omega

/-- Only links of `e` and of members change. -/
theorem frame {x y : Option Nat} {z : Nat}
    (hs : Seam r.low s.memory m' e.bp (lastOr none pre) (firstOr post none) x y)
    (hz : ∀ f ∈ pre ++ e :: post, z < f.bp ∨ f.bp + 16 ≤ z) : m'.byte z = s.memory.byte z := by
  refine hs.frame z (hz e (by simp)) ?_ ?_
  · intro p hp
    obtain ⟨g, mg, rfl⟩ := prev_mem hp
    have := hz g (List.mem_append_left _ mg)
    omega
  · intro n hn
    obtain ⟨g, mg, rfl⟩ := mem_of_firstOr hn
    have := hz g (List.mem_append_right _ (List.mem_cons_of_mem _ mg))
    omega

section Seams

variable {x y : Option Nat} (h : Place idx e pre post) (hf : Files r s idx)
  (hs : Seam r.low s.memory m' e.bp (lastOr none pre) (firstOr post none) x y)

include h hf hs

/-- A word of a member is one of the links at the seam, or is left alone. -/
theorem word_eq {f : Entry} {c a : Nat} (hm : f ∈ idx c) (ha : f.bp ≤ a + 8 ∧ a ≤ f.bp + 8)
    (hne : a + 8 ≤ f.bp ∨ f ∉ pre ++ e :: post) : m'.word a = s.memory.word a := by
  have hroom := (hf.stands c f hm).room
  have hlow := (hf.stands c f hm).low_le
  have he := h.room
  have beside : ∀ g ∈ pre ++ post, a + 8 ≤ g.bp ∨ g.bp + 16 ≤ a := by
    intro g mg
    have hg := (h.beside hf mg).1
    rcases hf.apart c f hm _ g (h.mem g mg) with rfl | hap
    · rcases hne with hne | hne
      · exact .inl hne
      · refine absurd ?_ hne
        rcases List.mem_append.mp mg with mg | mg
        · exact List.mem_append_left _ mg
        · exact List.mem_append_right _ (List.mem_cons_of_mem _ mg)
    · simp only [Entry.Apart] at hap
      omega
  refine hs.word_eq ?_ ?_ ?_
  · rcases h.apart c f hm with rfl | hap
    · rcases hne with hne | hne
      · exact .inl hne
      · exact absurd (List.mem_append_right _ List.mem_cons_self) hne
    · simp only [Entry.Apart] at hap
      omega
  · intro p hp
    obtain ⟨g, mg, rfl⟩ := prev_mem hp
    have := beside g (List.mem_append_left _ mg)
    omega
  · intro n hn
    obtain ⟨g, mg, rfl⟩ := mem_of_firstOr hn
    have := beside g (List.mem_append_right _ mg)
    omega

theorem stands {f : Entry} {c : Nat} (hm : f ∈ idx c) : Stands r m' f := by
  have hst := hf.stands c f hm
  have := hst.low_le
  refine hst.congr ?_
  rw [h.word_eq hf hs hm ⟨by omega, by omega⟩ (.inl (by omega))]
  exact hst.header

/-- Lists of other classes are not concerned. -/
theorem threaded_other {c : Nat} (hc : c ≠ sizeClass e.size) :
    Threaded r.low m' none (idx c) none := by
  apply (hf.threaded c).congr
  intro f hm
  have hout : f ∉ pre ++ e :: post := by
    intro hin
    have hfc := hf.classed c f hm
    rcases List.mem_append.mp hin with hin | hin
    · exact hc (hfc.symm.trans (hf.classed _ f (h.pre_mem hin)))
    · rcases List.mem_cons.mp hin with rfl | hin
      · exact hc hfc.symm
      · exact hc (hfc.symm.trans (hf.classed _ f (h.post_mem hin)))
  exact ⟨h.word_eq hf hs hm ⟨by omega, by omega⟩ (.inr hout),
    h.word_eq hf hs hm ⟨by omega, by omega⟩ (.inr hout)⟩

/-- The two parts keep their links, but for those at the seam. -/
theorem threaded {w z : Option Nat} (hpre : Threaded r.low s.memory none pre w)
    (hpost : Threaded r.low s.memory z post none) :
    Threaded r.low m' none pre x ∧ Threaded r.low m' y post none := by
  have he := h.room
  obtain ⟨hp1, hp2, hp3⟩ := List.pairwise_append.mp (h.pairwise hf)
  have off : ∀ f ∈ pre ++ post, f.bp + 16 ≤ e.bp ∨ e.bp + 16 ≤ f.bp := by
    intro f mf
    obtain ⟨h1, -, -, h4⟩ := h.beside hf mf
    simp only [Entry.Apart] at h4
    omega
  have cross : ∀ f ∈ pre, ∀ g ∈ post, f.bp + 16 ≤ g.bp ∨ g.bp + 16 ≤ f.bp := by
    intro f mf g mg
    have h1 := (h.beside hf (List.mem_append_left post mf)).1
    have h2 := (h.beside hf (List.mem_append_right pre mg)).1
    have h3 := hp3 f mf g (List.mem_cons_of_mem _ mg)
    simp only [Entry.Apart] at h3
    omega
  refine ⟨hs.threadedLeft hpre (fun f mf => (h.beside hf (List.mem_append_left _ mf)).1) hp1
      (fun f mf => off f (List.mem_append_left _ mf)) ?_,
    hs.threadedRight hpost (fun f mf => (h.beside hf (List.mem_append_right _ mf)).1)
      (List.pairwise_cons.mp hp2).2
      (fun f mf => off f (List.mem_append_right _ mf)) ?_⟩
  · intro n hn f mf
    obtain ⟨g, mg, rfl⟩ := mem_of_firstOr hn
    exact cross f mf g mg
  · intro p hp f mf
    obtain ⟨g, mg, rfl⟩ := prev_mem hp
    exact (cross g mg f mf).symm

/-- A seam in the list of `e`'s class makes it the list `es`. -/
theorem files {es : List Entry} {b : Buckets} (he : Stands r m' e)
    (hsub : ∀ f ∈ es, f ∈ pre ++ e :: post)
    (hb : ∀ c, b.head c = if c = sizeClass e.size then firstOr es none else s.buckets.head c)
    (ht : Threaded r.low m' none es none)
    (hasc : isExact (sizeClass e.size) = false → es.Pairwise fun f g => f.size ≤ g.size)
    (hnodup : es.Nodup) :
    Files r ⟨m', b⟩ fun c => if c = sizeClass e.size then es else idx c := by
  have hmem : ∀ c, ∀ f ∈ (if c = sizeClass e.size then es else idx c), f ∈ idx c ∨
      f = e ∧ c = sizeClass e.size := by
    intro c f mf
    by_cases hc : c = sizeClass e.size
    · subst hc
      rw [if_pos rfl] at mf
      rcases List.mem_append.mp (hsub f mf) with mf | mf
      · exact .inl (h.pre_mem mf)
      · rcases List.mem_cons.mp mf with rfl | mf
        · exact .inr ⟨rfl, rfl⟩
        · exact .inl (h.post_mem mf)
    · rw [if_neg hc] at mf
      exact .inl mf
  refine ⟨?_, ?_, ?_, ?_, ?_, ?_, ?_, hf.high_lt⟩
  · intro c
    rw [hb]
    split
    · rfl
    · exact hf.heads c
  · intro c
    split
    · exact ht
    · next hc => exact h.threaded_other hf hs hc
  · intro c f mf
    rcases hmem c f mf with mf | ⟨rfl, -⟩
    · exact h.stands hf hs mf
    · exact he
  · intro c f mf
    rcases hmem c f mf with mf | ⟨rfl, hc⟩
    · exact hf.classed c f mf
    · exact hc.symm
  · intro c hex
    split
    · next hc => exact hasc (hc ▸ hex)
    · exact hf.ascending c hex
  · intro c
    split
    · exact hnodup
    · exact hf.nodup c
  · intro c f mf d g mg
    rcases hmem c f mf with mf | ⟨ef, -⟩ <;> rcases hmem d g mg with mg | ⟨eg, -⟩
    · exact hf.apart c f mf d g mg
    · exact eg ▸ h.apart c f mf
    · exact ef ▸ (h.apart d g mg).imp Eq.symm Entry.Apart.symm
    · exact .inl (ef.trans eg.symm)

end Seams

end Place

/-! ## Filing -/

theorem setNext_apply {bp : Nat} {o : Option Nat} (h₁ : r.low ≤ bp) (h₂ : bp + 8 ≤ r.high)
    (ho : ∀ n, o = some n → r.low ≤ n) (s : Store) :
    (liftM (r.setNext bp o) : StoreM Unit) s =
      .ok () { s with memory := s.memory.setWord bp (link r.low o) } := by
  rw [StoreM.lift_writing, Region.setNext_eq h₁ h₂ o ho]
  rfl

theorem setPrev_apply {bp : Nat} {o : Option Nat} (h₁ : r.low ≤ bp) (h₂ : bp + 16 ≤ r.high)
    (ho : ∀ n, o = some n → r.low ≤ n) (hlt : r.high < wordLimit) (s : Store) :
    (liftM (r.setPrev bp o) : StoreM Unit) s =
      .ok () { s with memory := s.memory.setWord (bp + 8) (link r.low o) } := by
  rw [StoreM.lift_writing, Region.setPrev_eq (by omega) h₂ o ho (by omega)]
  rfl

theorem link_fits (low : Nat) {o : Option Nat} (h : ∀ n, o = some n → n < wordLimit) :
    link low o < wordLimit := by
  cases o with
  | none => exact (by decide : 0 < wordLimit)
  | some n => exact Nat.lt_of_le_of_lt (Nat.sub_le _ _) (h n rfl)

/-- Gives the block `prev` the next link `x`. -/
def turnNext (low : Nat) (prev x : Option Nat) (m : Memory) : Memory :=
  prev.elim m fun p => m.setWord p (link low x)

/-- Gives the block `next` the previous link `y`. -/
def turnPrev (low : Nat) (next y : Option Nat) (m : Memory) : Memory :=
  next.elim m fun n => m.setWord (n + 8) (link low y)

theorem turnNext_byte (low : Nat) {prev : Option Nat} {z : Nat} (x : Option Nat) (m : Memory)
    (h : ∀ p, prev = some p → z < p ∨ p + 8 ≤ z) : (turnNext low prev x m).byte z = m.byte z := by
  cases prev with
  | none => rfl
  | some p =>
    simp only [turnNext, Option.elim]
    exact Memory.byte_setWord_apart m _ (h p rfl)

theorem turnPrev_byte (low : Nat) {next : Option Nat} {z : Nat} (y : Option Nat) (m : Memory)
    (h : ∀ n, next = some n → z < n + 8 ∨ n + 16 ≤ z) :
    (turnPrev low next y m).byte z = m.byte z := by
  cases next with
  | none => rfl
  | some n =>
    simp only [turnPrev, Option.elim]
    exact Memory.byte_setWord_apart m _ (by have := h n rfl; omega)

theorem turnNext_word {low p : Nat} {x : Option Nat} (hx : link low x < wordLimit) (m : Memory) :
    (turnNext low (some p) x m).word p = link low x := by
  simp only [turnNext, Option.elim]
  exact Memory.word_setWord_of_lt m hx

theorem turnPrev_word {low n : Nat} {y : Option Nat} (hy : link low y < wordLimit) (m : Memory) :
    (turnPrev low (some n) y m).word (n + 8) = link low y := by
  simp only [turnPrev, Option.elim]
  exact Memory.word_setWord_of_lt m hy

/-- The head of a list after its end behind `pre` was exchanged. -/
theorem head_splice (b : Buckets) {c : Nat} (hc : c < bucketCount) {pre old new : List Entry}
    (h : b.head c = firstOr (pre ++ old) none) (d : Nat) :
    (if lastOr none pre = none then b.setHead c (firstOr new none) else b).head d =
      if d = c then firstOr (pre ++ new) none else b.head d := by
  cases pre with
  | nil => simp only [lastOr_nil, if_true, Buckets.head_setHead b hc, List.nil_append]
  | cons f pre =>
    have hne : lastOr none (f :: pre) ≠ none := fun hl => List.cons_ne_nil _ _ (lastOr_none hl)
    rw [if_neg hne]
    by_cases hd : d = c
    · subst hd; rw [if_pos rfl, h]; rfl
    · rw [if_neg hd]

variable {pre post : List Entry}

/-- The run of a filing between two neighbours, either of which may be missing. -/
theorem insert_apply (he : Stands r s.memory e) (hlt : r.high < wordLimit) {prev next : Option Nat}
    (hprev : ∀ p, prev = some p → r.low ≤ p ∧ p + 8 ≤ r.high)
    (hnext : ∀ n, next = some n → r.low ≤ n ∧ n + 16 ≤ r.high)
    (hslot : s.buckets.slot r (sizeClass e.size) e.size s.memory = .ok (prev, next)) :
    Store.insert r e.bp s = .ok ()
      ⟨turnNext r.low prev (some e.bp) (turnPrev r.low next (some e.bp)
        ((s.memory.setWord e.bp (link r.low next)).setWord (e.bp + 8) (link r.low prev))),
      if prev = none then s.buckets.setHead (sizeClass e.size) (some e.bp) else s.buckets⟩ := by
  have h1 := he.low_le
  have h2 := he.room
  have h3 := he.le_high
  have hself : ∀ n, some e.bp = some n → r.low ≤ n := fun n hn => by
    obtain rfl := Option.some.inj hn
    omega
  have hc : classOf e.size = .ok (sizeClass e.size) := if_pos he.room
  simp only [Store.insert, StoreM.bind_apply, StoreM.lift_reading, he.size_eq,
    StoreM.lift_except, hc, StoreM.get_apply, hslot,
    setNext_apply (show r.low ≤ e.bp by omega) (show e.bp + 8 ≤ r.high by omega) fun n hn =>
      (hnext n hn).1,
    setPrev_apply (show r.low ≤ e.bp by omega) (show e.bp + 16 ≤ r.high by omega)
      (fun p hp => (hprev p hp).1) hlt]
  cases next with
  | none =>
    cases prev with
    | none => rfl
    | some p =>
      simp only [setNext_apply (hprev p rfl).1 (hprev p rfl).2 hself]
      rfl
  | some n =>
    simp only [StoreM.bind_apply, setPrev_apply (hnext n rfl).1 (hnext n rfl).2 hself hlt]
    cases prev with
    | none => rfl
    | some p =>
      simp only [setNext_apply (hprev p rfl).1 (hprev p rfl).2 hself]
      rfl

theorem insert_seam (h : Files r s idx) (he : Stands r s.memory e) (hp : Place idx e pre post)
    (hslot : s.buckets.slot r (sizeClass e.size) e.size s.memory =
      .ok (lastOr none pre, firstOr post none)) :
    ∃ m', Store.insert r e.bp s = .ok () ⟨m', if lastOr none pre = none then
        s.buckets.setHead (sizeClass e.size) (firstOr (e :: post) none) else s.buckets⟩ ∧
      Seam r.low s.memory m' e.bp (lastOr none pre) (firstOr post none) (some e.bp) (some e.bp) ∧
      m'.word e.bp = link r.low (firstOr post none) ∧
      m'.word (e.bp + 8) = link r.low (lastOr none pre) := by
  have h1 := he.low_le
  have h2 := he.room
  have h3 := he.le_high
  have hlt := h.high_lt
  obtain ⟨hprev, hnext, hpn⟩ := hp.neighbours h
  rw [firstOr_cons]
  generalize lastOr none pre = prev at *
  generalize firstOr post none = next at *
  have lp : link r.low prev < wordLimit := link_fits _ fun p hp => by have := hprev p hp; omega
  have ln : link r.low next < wordLimit := link_fits _ fun n hn => by have := hnext n hn; omega
  have le : link r.low (some e.bp) < wordLimit := link_fits _ fun n hn => by
    obtain rfl := Option.some.inj hn
    omega
  have hrun := insert_apply he hlt (fun p hp => by have := hprev p hp; omega)
    (fun n hn => by have := hnext n hn; omega) hslot
  obtain ⟨m₀, hm₀⟩ : ∃ m₀, m₀ =
      (s.memory.setWord e.bp (link r.low next)).setWord (e.bp + 8) (link r.low prev) := ⟨_, rfl⟩
  rw [← hm₀] at hrun
  refine ⟨_, hrun, ⟨?_, ?_, ?_⟩, ?_, ?_⟩
  · rintro p rfl
    exact turnNext_word le _
  · rintro n rfl
    rw [← turnPrev_word le m₀]
    refine Memory.word_congr fun z h1 h2 => turnNext_byte _ _ _ ?_
    intro p hp
    have := hpn p n hp rfl
    omega
  · intro z hz hp hn
    rw [turnNext_byte _ _ _ hp, turnPrev_byte _ _ _ hn, hm₀,
      Memory.byte_setWord_apart _ _ (by omega), Memory.byte_setWord_apart _ _ (by omega)]
  · have : m₀.word e.bp = link r.low next := by
      rw [hm₀, Memory.word_setWord_apart _ _ (by omega), Memory.word_setWord_of_lt _ ln]
    rw [← this]
    refine Memory.word_congr fun z h1 h2 => ?_
    rw [turnNext_byte _ _ _ fun p hp => by have := hprev p hp; omega,
      turnPrev_byte _ _ _ fun n hn => by have := hnext n hn; omega]
  · have : m₀.word (e.bp + 8) = link r.low prev := hm₀ ▸ Memory.word_setWord_of_lt _ lp
    rw [← this]
    refine Memory.word_congr fun z h1 h2 => ?_
    rw [turnNext_byte _ _ _ fun p hp => by have := hprev p hp; omega,
      turnPrev_byte _ _ _ fun n hn => by have := hnext n hn; omega]

/-- The run of taking a block out from between two neighbours, either of which may be missing. -/
theorem remove_apply (he : Stands r s.memory e) (hlt : r.high < wordLimit) {prev next : Option Nat}
    (hprev : ∀ p, prev = some p → r.low ≤ p ∧ p + 8 ≤ r.high)
    (hnext : ∀ n, next = some n → r.low ≤ n ∧ n + 16 ≤ r.high)
    (hlinks : r.links e.bp s.memory = .ok ⟨next, prev⟩)
    (hhead : prev = none → s.buckets.head (sizeClass e.size) = some e.bp) :
    Store.remove r e.bp s = .ok ()
      ⟨turnPrev r.low next prev (turnNext r.low prev next s.memory),
      if prev = none then s.buckets.setHead (sizeClass e.size) next else s.buckets⟩ := by
  have hc : classOf e.size = .ok (sizeClass e.size) := if_pos he.room
  have op : ∀ p, prev = some p → r.low ≤ p := fun p hp => (hprev p hp).1
  have on : ∀ n, next = some n → r.low ≤ n := fun n hn => (hnext n hn).1
  simp only [Store.remove, StoreM.bind_apply, StoreM.lift_reading, he.size_eq,
    StoreM.lift_except, hc, hlinks]
  cases prev with
  | none =>
    simp only [StoreM.bind_apply, StoreM.get_apply, hhead rfl]
    cases next with
    | none => simp [Store.setHead_apply, turnNext, turnPrev, StoreM.pure_apply, StoreM.bind_apply]
    | some n =>
      simp [Store.setHead_apply, turnNext, turnPrev, StoreM.bind_apply,
        setPrev_apply (hnext n rfl).1 (hnext n rfl).2 op hlt]
  | some p =>
    simp only [StoreM.bind_apply, setNext_apply (hprev p rfl).1 (hprev p rfl).2 on]
    cases next with
    | none => rfl
    | some n =>
      simp only [setPrev_apply (hnext n rfl).1 (hnext n rfl).2 op hlt]
      rfl

theorem remove_seam (h : Files r s idx) (hp : Place idx e pre post)
    (hsplit : idx (sizeClass e.size) = pre ++ e :: post) :
    ∃ m', Store.remove r e.bp s = .ok () ⟨m', if lastOr none pre = none then
        s.buckets.setHead (sizeClass e.size) (firstOr post none) else s.buckets⟩ ∧
      Seam r.low s.memory m' e.bp (lastOr none pre) (firstOr post none) (firstOr post none)
        (lastOr none pre) := by
  have he : Stands r s.memory e := h.stands _ e (by rw [hsplit]; simp)
  have hlt := h.high_lt
  obtain ⟨hprev, hnext, hpn⟩ := hp.neighbours h
  have hlinks := h.links hsplit
  have hhead : lastOr none pre = none → s.buckets.head (sizeClass e.size) = some e.bp := by
    intro hn
    rw [h.heads, hsplit, lastOr_none hn]
    rfl
  generalize lastOr none pre = prev at *
  generalize firstOr post none = next at *
  have lp : link r.low prev < wordLimit := link_fits _ fun p hp => by have := hprev p hp; omega
  have ln : link r.low next < wordLimit := link_fits _ fun n hn => by have := hnext n hn; omega
  have hrun := remove_apply he hlt (fun p hp => by have := hprev p hp; omega)
    (fun n hn => by have := hnext n hn; omega) hlinks hhead
  refine ⟨_, hrun, ?_, ?_, ?_⟩
  · rintro p rfl
    rw [← turnNext_word ln s.memory]
    refine Memory.word_congr fun z h1 h2 => turnPrev_byte _ _ _ ?_
    intro n hn
    have := hpn p n rfl hn
    omega
  · rintro n rfl
    exact turnPrev_word lp _
  · intro z hz hp hn
    rw [turnPrev_byte _ _ _ hn, turnNext_byte _ _ _ hp]

theorem slot_sorted {c size : Nat} {es pre post : List Entry} (hc : isExact c = false)
    (hs : es.Pairwise fun e f => e.size ≤ f.size) (h : Index.slot c size es = (pre, post)) :
    (∀ f ∈ pre, f.size < size) ∧ ∀ f ∈ post, size ≤ f.size := by
  unfold Index.slot at h
  rw [hc] at h
  simp only [Bool.false_eq_true, if_false, Prod.mk.injEq] at h
  obtain ⟨rfl, rfl⟩ := h
  refine ⟨fun f hf => by simpa using List.all_eq_true.mp List.all_takeWhile f hf, ?_⟩
  have hsub : (es.dropWhile (·.size < size)).Pairwise fun e f => e.size ≤ f.size :=
    hs.sublist (List.dropWhile_sublist _)
  cases hd : es.dropWhile (·.size < size) with
  | nil => intro f hf; cases hf
  | cons e fs =>
    rw [hd] at hsub
    have he : size ≤ e.size := by
      have := List.head?_dropWhile_not (fun f : Entry => decide (f.size < size)) es
      rw [hd] at this
      simpa using this
    intro f hf
    rcases List.mem_cons.mp hf with rfl | hf
    · exact he
    · exact Nat.le_trans he ((List.pairwise_cons.mp hsub).1 f hf)

/-- Filing a block that stands apart from all others puts it into its list, where there is a
    seam. -/
theorem insert_sewn (h : Files r s idx) (he : Stands r s.memory e)
    (hnew : ∀ c, ∀ f ∈ idx c, f.Apart e) :
    ∃ s' pre post, Store.insert r e.bp s = .ok () s' ∧ Files r s' (idx.insert e) ∧
      idx.insert e (sizeClass e.size) = pre ++ e :: post ∧
      Seam r.low s.memory s'.memory e.bp (lastOr none pre) (firstOr post none) (some e.bp)
        (some e.bp) := by
  obtain ⟨pre, post, hslot⟩ :
      ∃ pre post, Index.slot (sizeClass e.size) e.size (idx (sizeClass e.size)) = (pre, post) :=
    ⟨_, _, rfl⟩
  have hsplit : pre ++ post = idx (sizeClass e.size) := by
    have := Index.slot_append (sizeClass e.size) e.size (idx (sizeClass e.size))
    rwa [hslot] at this
  have hins : idx.insert e = fun c => if c = sizeClass e.size then pre ++ e :: post else idx c := by
    funext c
    by_cases hc : c = sizeClass e.size
    · subst hc; simp [Index.insert, hslot]
    · simp [Index.insert, hc]
  have hroom := he.room
  have hfresh : ∀ c, ∀ f ∈ idx c, e ≠ f := by
    rintro c f hf rfl
    have := hnew c _ hf
    simp only [Entry.Apart] at this
    omega
  have hp : Place idx e pre post := by
    refine ⟨hroom, fun f hf => hsplit ▸ hf, ?_, fun c f hf => .inr (hnew c f hf)⟩
    refine (List.perm_middle.nodup_iff).mpr (List.nodup_cons.mpr ⟨?_, hsplit ▸ h.nodup _⟩)
    intro hm
    exact hfresh _ e (hsplit ▸ hm) rfl
  have hs := h.slot (sizeClass e.size) e.size
  rw [hslot] at hs
  obtain ⟨m', hrun, hseam, hnext, hprev⟩ := h.insert_seam he hp hs
  have hheader : m'.word (e.bp - 8) = s.memory.word (e.bp - 8) := by
    obtain ⟨h1, h2, -⟩ := hp.neighbours h
    have := he.low_le
    exact hseam.word_eq (by omega) (fun p hp => by have := h1 p hp; omega) fun n hn => by
      have := h2 n hn
      omega
  have ht := h.threaded (sizeClass e.size)
  rw [← hsplit, threaded_append] at ht
  obtain ⟨ht1, ht2⟩ := hp.threaded h hseam ht.1 ht.2
  refine ⟨_, pre, post, hrun, ?_, by simp [hins], hseam⟩
  rw [hins]
  refine hp.files h hseam (he.congr (by rw [hheader]; exact he.header)) (fun f hf => hf)
    (head_splice s.buckets (sizeClass_lt _) (by rw [h.heads, hsplit]))
    (threaded_append.mpr ⟨ht1, hnext, hprev, ht2⟩) ?_ hp.nodup
  intro hex
  have hsort := h.ascending _ hex
  obtain ⟨hlo, hhi⟩ := slot_sorted hex hsort hslot
  rw [← hsplit] at hsort
  obtain ⟨h1, h2, h3⟩ := List.pairwise_append.mp hsort
  refine List.pairwise_append.mpr ⟨h1, List.pairwise_cons.mpr ⟨hhi, h2⟩, ?_⟩
  intro f hf g hg
  rcases List.mem_cons.mp hg with rfl | hg
  · exact Nat.le_of_lt (hlo f hf)
  · exact h3 f hf g hg

theorem insert_spec (h : Files r s idx) (he : Stands r s.memory e)
    (hnew : ∀ c, ∀ f ∈ idx c, f.Apart e) :
    ∃ s', Store.insert r e.bp s = .ok () s' ∧ Files r s' (idx.insert e) ∧
      ∀ z, (∀ c, ∀ f ∈ idx.insert e c, z < f.bp ∨ f.bp + 16 ≤ z) →
        s'.memory.byte z = s.memory.byte z := by
  obtain ⟨s', pre, post, hrun, hfiles, hsplit, hseam⟩ := h.insert_sewn he hnew
  exact ⟨s', hrun, hfiles,
    fun z hz => Place.frame hseam fun f hf => hz (sizeClass e.size) f (hsplit ▸ hf)⟩

/-- Taking a filed block out of its list leaves the others as they are, with a seam where it was. -/
theorem remove_sewn (h : Files r s idx) (hm : e ∈ idx (sizeClass e.size)) :
    ∃ s' pre post, Store.remove r e.bp s = .ok () s' ∧ Files r s' (idx.erase e) ∧
      idx (sizeClass e.size) = pre ++ e :: post ∧
      Seam r.low s.memory s'.memory e.bp (lastOr none pre) (firstOr post none) (firstOr post none)
        (lastOr none pre) := by
  obtain ⟨pre, post, hsplit⟩ := List.append_of_mem hm
  have hnodup : (pre ++ e :: post).Nodup := hsplit ▸ h.nodup _
  have hera : idx.erase e = fun c => if c = sizeClass e.size then pre ++ post else idx c := by
    funext c
    by_cases hc : c = sizeClass e.size
    · subst hc
      have : e ∉ pre := fun hin => (List.nodup_append.mp hnodup).2.2 e hin e List.mem_cons_self rfl
      simp [Index.erase, hsplit, List.erase_append_right _ this]
    · simp [Index.erase, hc]
  have hp : Place idx e pre post := by
    refine ⟨(h.stands _ e hm).room, ?_, hnodup, fun c f hf => h.apart c f hf _ e hm⟩
    intro f hf
    rw [hsplit]
    rcases List.mem_append.mp hf with hf | hf
    · exact List.mem_append_left _ hf
    · exact List.mem_append_right _ (List.mem_cons_of_mem _ hf)
  obtain ⟨m', hrun, hseam⟩ := h.remove_seam hp hsplit
  have ht := h.threaded (sizeClass e.size)
  rw [hsplit, threaded_append] at ht
  obtain ⟨ht1, ht2⟩ := hp.threaded h hseam ht.1 ht.2.2.2
  refine ⟨_, pre, post, hrun, ?_, hsplit, hseam⟩
  rw [hera]
  have hsub : (pre ++ post).Sublist (pre ++ e :: post) := (List.sublist_cons_self _ _).append_left _
  exact hp.files h hseam (hp.stands h hseam hm) (fun f hf => hsub.subset hf)
    (head_splice s.buckets (sizeClass_lt _) (by rw [h.heads, hsplit]))
    (threaded_append.mpr ⟨ht1, ht2⟩) (fun hex => (hsplit ▸ h.ascending _ hex).sublist hsub)
      (hnodup.sublist hsub)

theorem remove_spec (h : Files r s idx) (hm : e ∈ idx (sizeClass e.size)) :
    ∃ s', Store.remove r e.bp s = .ok () s' ∧ Files r s' (idx.erase e) ∧
      ∀ z, (∀ c, ∀ f ∈ idx c, z < f.bp ∨ f.bp + 16 ≤ z) → s'.memory.byte z = s.memory.byte z := by
  obtain ⟨s', pre, post, hrun, hfiles, hsplit, hseam⟩ := h.remove_sewn hm
  exact ⟨s', hrun, hfiles,
    fun z hz => Place.frame hseam fun f hf => hz (sizeClass e.size) f (hsplit ▸ hf)⟩

end Files

end BoundaryTag
