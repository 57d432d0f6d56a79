/-
  BoundaryTag.Proofs.Threaded — free lists as lists, and the links that hold them together.

  An `Index` is the free lists without their links: for each class its blocks, in order.
  `Threaded` says that the links of a stretch of one list are in memory: each block's next link
  names the block after it, its previous link the one before. A stretch knows what lies on
  either side of it, so that lists come apart and go together at any block (`threaded_append`),
  and a stretch keeps its links when only the blocks at its ends are given other neighbours
  (`Threaded.turnLast`, `Threaded.turnFirst`).
-/

import BoundaryTag.Buckets
import BoundaryTag.Proofs.Tiling
import BoundaryTag.Region.Lemmas

namespace BoundaryTag

abbrev Index := Nat → List Entry

/-- The first block of a stretch of a list, or what follows the stretch. -/
def firstOr : List Entry → Option Nat → Option Nat
  | [], next => next
  | e :: _, _ => some e.bp

/-- The last block of a stretch of a list, or what is before the stretch. -/
def lastOr : Option Nat → List Entry → Option Nat
  | prev, [] => prev
  | _, e :: es => lastOr (some e.bp) es

namespace Index

def empty : Index := fun _ => []

/-- Where a block of this size goes in a list of its class: between the two parts. -/
def slot (cls size : Nat) (es : List Entry) : List Entry × List Entry :=
  if isExact cls then ([], es) else (es.takeWhile (·.size < size), es.dropWhile (·.size < size))

def insert (idx : Index) (e : Entry) : Index := fun c =>
  if c = sizeClass e.size then
    (slot c e.size (idx c)).1 ++ e :: (slot c e.size (idx c)).2 else idx c

def erase (idx : Index) (e : Entry) : Index := fun c =>
  if c = sizeClass e.size then (idx c).erase e else idx c

/-- The first block that fits, searched from the class of `size` upwards. -/
def find (idx : Index) (size : Nat) : Option Entry :=
  ((List.range bucketCount).drop (sizeClass size)).findSome? fun c => (idx c).find? (size ≤ ·.size)

theorem slot_append (cls size : Nat) (es : List Entry) :
    (slot cls size es).1 ++ (slot cls size es).2 = es := by
  unfold slot
  split
  · rfl
  · exact List.takeWhile_append_dropWhile

theorem mem_insert {idx : Index} {e f : Entry} {c : Nat} :
    f ∈ idx.insert e c ↔ f ∈ idx c ∨ f = e ∧ c = sizeClass e.size := by
  unfold insert
  by_cases hc : c = sizeClass e.size
  · rw [if_pos hc]
    have : f ∈ idx c ↔ f ∈ (slot c e.size (idx c)).1 ∨ f ∈ (slot c e.size (idx c)).2 := by
      rw [← List.mem_append, slot_append]
    rw [List.mem_append, List.mem_cons, this]
    constructor
    · rintro (h | h | h)
      · exact .inl (.inl h)
      · exact .inr ⟨h, hc⟩
      · exact .inl (.inr h)
    · rintro ((h | h) | h)
      · exact .inl h
      · exact .inr (.inr h)
      · exact .inr (.inl h.1)
  · simp [hc]

theorem mem_of_find {idx : Index} {size : Nat} {e : Entry} (h : idx.find size = some e) :
    (∃ c, e ∈ idx c) ∧ size ≤ e.size := by
  obtain ⟨c, -, hc⟩ := List.exists_of_findSome?_eq_some h
  exact ⟨⟨c, List.mem_of_find?_eq_some hc⟩, by simpa using List.find?_some hc⟩

end Index

/-! ## Ends of a stretch -/

@[simp] theorem firstOr_nil (next : Option Nat) : firstOr [] next = next := rfl
@[simp] theorem firstOr_cons (e : Entry) (es : List Entry) (next : Option Nat) :
    firstOr (e :: es) next = some e.bp := rfl
@[simp] theorem lastOr_nil (prev : Option Nat) : lastOr prev [] = prev := rfl
@[simp] theorem lastOr_cons (prev : Option Nat) (e : Entry) (es : List Entry) :
    lastOr prev (e :: es) = lastOr (some e.bp) es := rfl

theorem firstOr_append (xs ys : List Entry) (next : Option Nat) :
    firstOr (xs ++ ys) next = firstOr xs (firstOr ys next) := by
  cases xs <;> rfl

theorem lastOr_append (prev : Option Nat) (xs ys : List Entry) :
    lastOr prev (xs ++ ys) = lastOr (lastOr prev xs) ys := by
  induction xs generalizing prev with
  | nil => rfl
  | cons e xs ih => exact ih _

theorem mem_of_firstOr {es : List Entry} {n : Nat} (h : firstOr es none = some n) :
    ∃ e ∈ es, e.bp = n := by
  cases es with
  | nil => cases h
  | cons e es => exact ⟨e, List.mem_cons_self, Option.some.inj h⟩

theorem mem_of_lastOr {es : List Entry} {prev : Option Nat} {n : Nat}
    (h : lastOr prev es = some n) :
    (∃ e ∈ es, e.bp = n) ∨ prev = some n := by
  induction es generalizing prev with
  | nil => exact .inr h
  | cons e es ih =>
    rcases ih h with ⟨f, hf, hn⟩ | hn
    · exact .inl ⟨f, List.mem_cons_of_mem _ hf, hn⟩
    · exact .inl ⟨e, List.mem_cons_self, Option.some.inj hn⟩

theorem lastOr_none {es : List Entry} (h : lastOr none es = none) : es = [] := by
  cases es with
  | nil => rfl
  | cons e es =>
    have : ∀ (fs : List Entry) (b : Nat), lastOr (some b) fs ≠ none := by
      intro fs
      induction fs with
      | nil => intro b hb; cases hb
      | cons f fs ih => intro b; exact ih f.bp
    exact absurd h (this es e.bp)

/-! ## Links -/

/-- A link as it is stored: the distance from the low end, zero for none. -/
def link (low : Nat) (o : Option Nat) : Nat := o.elim 0 (· - low)

/-- The links of a stretch of a list, between the blocks `prev` and `next`. -/
def Threaded (low : Nat) (m : Memory) : Option Nat → List Entry → Option Nat → Prop
  | _, [], _ => True
  | prev, e :: es, next =>
    m.word e.bp = link low (firstOr es next) ∧ m.word (e.bp + 8) = link low prev ∧
      Threaded low m (some e.bp) es next

variable {low : Nat} {m m' : Memory}

theorem threaded_append {prev next : Option Nat} {xs ys : List Entry} :
    Threaded low m prev (xs ++ ys) next ↔
      Threaded low m prev xs (firstOr ys next) ∧ Threaded low m (lastOr prev xs) ys next := by
  induction xs generalizing prev with
  | nil => simp [Threaded, lastOr]
  | cons e xs ih => simp only [List.cons_append, Threaded, ih, firstOr_append, lastOr, and_assoc]

theorem Threaded.congr {prev next : Option Nat} {es : List Entry} (h : Threaded low m prev es next)
    (hm : ∀ e ∈ es, m'.word e.bp = m.word e.bp ∧ m'.word (e.bp + 8) = m.word (e.bp + 8)) :
    Threaded low m' prev es next := by
  induction es generalizing prev with
  | nil => trivial
  | cons e es ih =>
    obtain ⟨h1, h2, h3⟩ := h
    obtain ⟨hm1, hm2⟩ := hm e List.mem_cons_self
    exact ⟨hm1.trans h1, hm2.trans h2, ih h3 fun f hf => hm f (List.mem_cons_of_mem _ hf)⟩

/-- The links of a list are determined by it. -/
theorem Threaded.word_eq {prev next : Option Nat} {es : List Entry}
    (h : Threaded low m prev es next) (h' : Threaded low m' prev es next) :
    ∀ e ∈ es, m'.word e.bp = m.word e.bp ∧ m'.word (e.bp + 8) = m.word (e.bp + 8) := by
  induction es generalizing prev with
  | nil =>
    intro e he
    cases he
  | cons f es ih =>
    obtain ⟨hnext, hprev, hrest⟩ := h
    obtain ⟨hnext', hprev', hrest'⟩ := h'
    intro e he
    rcases List.mem_cons.mp he with rfl | he
    · exact ⟨hnext'.trans hnext.symm, hprev'.trans hprev.symm⟩
    · exact ih hrest hrest' e he

/-- The last block of a stretch gets another successor. -/
theorem Threaded.turnLast {prev next next' : Option Nat} {es : List Entry} {e : Entry}
    (h : Threaded low m prev (es ++ [e]) next) (hnext : m'.word e.bp = link low next')
    (he : m'.word (e.bp + 8) = m.word (e.bp + 8))
    (hm : ∀ f ∈ es, m'.word f.bp = m.word f.bp ∧ m'.word (f.bp + 8) = m.word (f.bp + 8)) :
    Threaded low m' prev (es ++ [e]) next' := by
  rw [threaded_append] at h ⊢
  obtain ⟨h1, -, h2, -⟩ := h
  exact ⟨h1.congr hm, hnext, he.trans h2, trivial⟩

/-- The first block of a stretch gets another predecessor. -/
theorem Threaded.turnFirst {prev prev' next : Option Nat} {es : List Entry} {e : Entry}
    (h : Threaded low m prev (e :: es) next) (hprev : m'.word (e.bp + 8) = link low prev')
    (he : m'.word e.bp = m.word e.bp)
    (hm : ∀ f ∈ es, m'.word f.bp = m.word f.bp ∧ m'.word (f.bp + 8) = m.word (f.bp + 8)) :
    Threaded low m' prev' (e :: es) next :=
  ⟨he.trans h.1, hprev, h.2.2.congr hm⟩

/-! ## Seams -/

/-- Two blocks share no byte. -/
def Entry.Apart (e f : Entry) : Prop := e.bp + e.size ≤ f.bp ∨ f.bp + f.size ≤ e.bp

theorem Entry.Apart.symm {e f : Entry} (h : e.Apart f) : f.Apart e := Or.symm h

/-- What happened at one place of a list: the block before it, `prev`, got the next link
    `x`, the block behind it, `next`, got the previous link `y`, and of all other bytes only
    links of `bp` changed. -/
structure Seam (low : Nat) (m m' : Memory) (bp : Nat) (prev next x y : Option Nat) : Prop where
  left : ∀ p, prev = some p → m'.word p = link low x
  right : ∀ n, next = some n → m'.word (n + 8) = link low y
  frame : ∀ z, (z < bp ∨ bp + 16 ≤ z) → (∀ p, prev = some p → z < p ∨ p + 8 ≤ z) →
    (∀ n, next = some n → z < n + 8 ∨ n + 16 ≤ z) → m'.byte z = m.byte z

namespace Seam

variable {bp : Nat} {prev next x y : Option Nat} {es : List Entry} {e : Entry}

/-- The seam touches no header, and no link of a block that is not beside it. -/
theorem word_eq (h : Seam low m m' bp prev next x y) {a : Nat} (hbp : a + 8 ≤ bp ∨ bp + 16 ≤ a)
    (hprev : ∀ p, prev = some p → a + 8 ≤ p ∨ p + 8 ≤ a)
    (hnext : ∀ n, next = some n → a + 8 ≤ n + 8 ∨ n + 16 ≤ a) :
    m'.word a = m.word a := by
  refine Memory.word_congr fun z h1 h2 => h.frame z (by omega) ?_ ?_
  · intro p hp
    have := hprev p hp; omega
  · intro n hn
    have := hnext n hn; omega

/-- The stretch on the left of a seam, whose members are apart from `bp` and from `next`. -/
theorem threadedLeft (h : Seam low m m' bp (lastOr none es) next x y) {z : Option Nat}
    (ht : Threaded low m none es z) (hroom : ∀ f ∈ es, 32 ≤ f.size)
    (hapart : es.Pairwise Entry.Apart) (hbp : ∀ f ∈ es, f.bp + 16 ≤ bp ∨ bp + 16 ≤ f.bp)
    (hnext : ∀ n, next = some n → ∀ f ∈ es, f.bp + 16 ≤ n ∨ n + 16 ≤ f.bp) :
    Threaded low m' none es x := by
  rcases List.eq_nil_or_concat es with rfl | ⟨fs, e, rfl⟩
  · trivial
  · rw [List.concat_eq_append] at *
    have hlast : lastOr none (fs ++ [e]) = some e.bp := lastOr_append _ _ _
    rw [hlast] at h
    have me : e ∈ fs ++ [e] := by simp
    refine ht.turnLast (h.left _ rfl) ?_ ?_
    · refine h.word_eq (by have := hbp e me; omega) ?_ fun n hn => by have := hnext n hn e me; omega
      intro p hp
      obtain rfl := Option.some.inj hp
      omega
    · intro f hf
      have mf : f ∈ fs ++ [e] := List.mem_append_left _ hf
      have h1 := hbp f mf
      have h2 := hroom f mf
      have h3 := hroom e me
      have h4 : f.Apart e := (List.pairwise_append.mp hapart).2.2 f hf e (by simp)
      simp only [Entry.Apart] at h4
      refine ⟨h.word_eq (by omega) (fun p hp => ?_) fun n hn => by have := hnext n hn f mf; omega,
        h.word_eq (by omega) (fun p hp => ?_) fun n hn => by have := hnext n hn f mf; omega⟩ <;>
      · obtain rfl := Option.some.inj hp
        omega

/-- The stretch on the right of a seam, whose members are apart from `bp` and from `prev`. -/
theorem threadedRight (h : Seam low m m' bp prev (firstOr es none) x y) {z : Option Nat}
    (ht : Threaded low m z es none) (hroom : ∀ f ∈ es, 32 ≤ f.size)
    (hapart : es.Pairwise Entry.Apart) (hbp : ∀ f ∈ es, f.bp + 16 ≤ bp ∨ bp + 16 ≤ f.bp)
    (hprev : ∀ p, prev = some p → ∀ f ∈ es, f.bp + 16 ≤ p ∨ p + 16 ≤ f.bp) :
    Threaded low m' y es none := by
  cases es with
  | nil => trivial
  | cons e fs =>
    have me : e ∈ e :: fs := List.mem_cons_self
    refine ht.turnFirst (h.right _ rfl) ?_ ?_
    · apply h.word_eq (by have := hbp e me; omega) (fun p hp => by have := hprev p hp e me; omega)
      intro n hn
      obtain rfl := Option.some.inj hn
      omega
    · intro f hf
      have mf : f ∈ e :: fs := List.mem_cons_of_mem _ hf
      have h1 := hbp f mf
      have h2 := hroom f mf
      have h3 := hroom e me
      have h4 : e.Apart f := (List.pairwise_cons.mp hapart).1 f hf
      simp only [Entry.Apart] at h4
      refine ⟨h.word_eq (by omega) (fun p hp => by have := hprev p hp f mf; omega) fun n hn => ?_,
        h.word_eq (by omega) (fun p hp => by have := hprev p hp f mf; omega) fun n hn => ?_⟩ <;>
      · obtain rfl := Option.some.inj hn
        omega

end Seam

/-! ## Reading links -/

namespace Region

variable {r : Region}

theorem link_decode (r : Region) {o : Option Nat} (h : ∀ n, o = some n → r.low < n) :
    (if link r.low o = 0 then none else some (r.low + link r.low o)) = o := by
  cases o with
  | none => rfl
  | some n =>
    have := h n rfl
    have hlink : link r.low (some n) = n - r.low := rfl
    rw [if_neg (by omega), hlink, Nat.add_sub_cancel' (by omega)]

theorem link_lt (r : Region) {o : Option Nat} (h : ∀ n, o = some n → r.low < n ∧ n < wordLimit)
    (hlow : r.low < wordLimit) : r.low + link r.low o < wordLimit := by
  cases o with
  | none => exact hlow
  | some n =>
    have := h n rfl
    simp only [link, Option.elim]
    omega

theorem nextLink_of_link {bp : Nat} {o : Option Nat} (hw : m.word bp = link r.low o)
    (h : ∀ n, o = some n → r.low < n ∧ n < wordLimit) (h₁ : r.low ≤ bp) (h₂ : bp + 8 ≤ r.high)
    (hlow : r.low < wordLimit) : r.nextLink bp m = .ok o := by
  rw [nextLink_eq h₁ h₂ (by rw [hw]; exact link_lt r h hlow), hw,
    link_decode r fun n hn => (h n hn).1]

theorem prevLink_of_link {bp : Nat} {o : Option Nat} (hw : m.word (bp + 8) = link r.low o)
    (h : ∀ n, o = some n → r.low < n ∧ n < wordLimit) (h₁ : r.low ≤ bp) (h₂ : bp + 16 ≤ r.high)
    (hlt : bp + 8 < wordLimit) : r.prevLink bp m = .ok o := by
  rw [prevLink_eq (by omega) h₂ (by rw [hw]; exact link_lt r h (by omega)) hlt, hw,
    link_decode r fun n hn => (h n hn).1]

theorem links_of_link {bp : Nat} {l : Links} (hnext : m.word bp = link r.low l.next)
    (hprev : m.word (bp + 8) = link r.low l.prev)
    (hn : ∀ n, l.next = some n → r.low < n ∧ n < wordLimit)
    (hp : ∀ n, l.prev = some n → r.low < n ∧ n < wordLimit) (h₁ : r.low ≤ bp)
    (h₂ : bp + 16 ≤ r.high) (hlt : bp + 8 < wordLimit) : r.links bp m = .ok l := by
  simp only [links, Reading.bind_apply,
    nextLink_of_link hnext hn h₁ (show bp + 8 ≤ r.high by omega) (show r.low < wordLimit by omega),
    prevLink_of_link hprev hp h₁ h₂ hlt, Except.bind]
  rfl

end Region

end BoundaryTag
