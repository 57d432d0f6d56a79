/-
  BoundaryTag.Proofs.TwinHeaps — the same heap in two places.

  Two heaps correspond when their stores do, their prologues are twins, their settings are
  equal, and their arenas are of two kinds that answer alike, byte for byte and refusal for
  refusal. What they have told so far may differ.

  Proved: an operation on one and the operation on the other that is told corresponding addresses
  end alike (`Arenas.tryRelease`, `Arenas.tryReallocate`, `Arenas.tryZeroAllocate`), and so do the
  questions (`Arenas.usableSize`, `Arenas.stats`, `Arenas.validate`, `Arenas.checkHeap`).
-/

import BoundaryTag.Proofs.Serving
import BoundaryTag.Proofs.TwinAudits
import BoundaryTag.Proofs.TwinStores
import BoundaryTag.Proofs.Verdicts

namespace BoundaryTag

namespace Heap

variable {A : Type} [Arena A] {h h' : Heap A} {p : Nat}

/-- Not among the addresses of blocks. -/
def Outside (h : Heap A) (p : Nat) : Prop := p < h.firstBlock ∨ Arena.high h.arena ≤ p

/-- What an address is accepted for. -/
theorem checkAddress_ok (hrun : checkAddress p h = .ok () h') : h' = h ∧ Arena.low h.arena + 8 ≤ p ∧
    p + ((Tag.decode (h.store.memory.word (p - 8))).size - 8) ≤ Arena.high h.arena := by
  unfold checkAddress at hrun
  obtain ⟨r, h₁, hr, hrun⟩ := HeapM.bind_ok.mp hrun
  obtain ⟨rfl, rfl, -⟩ := region_ok.mp hr
  simp only [HeapM.bind_apply, HeapM.get_apply] at hrun
  split at hrun
  · cases hrun
  obtain ⟨aligned, h₂, haligned, hrun⟩ := HeapM.bind_ok.mp hrun
  obtain rfl : h₂ = h₁ := by
    rw [HeapM.lift_except] at haligned
    split at haligned <;> cases haligned
    rfl
  split at hrun
  · cases hrun
  obtain ⟨tag, h₃, htag, hrun⟩ := HeapM.bind_ok.mp hrun
  rw [HeapM.lift_reading] at htag
  rcases hread : (⟨Arena.low h₂.arena, Arena.high h₂.arena⟩ : Region).tag p h₂.store.memory with
    f | tag'
  · rw [hread] at htag
    cases htag
  rw [hread] at htag
  cases htag
  obtain ⟨hlow, -, rfl⟩ := Region.tag_ok.mp hread
  split at hrun
  · cases hrun
  · next hno =>
    cases hrun
    simp only [Bool.or_eq_true, decide_eq_true_eq, not_or, Nat.not_lt, wordSize] at hno
    exact ⟨rfl, hlow, hno.2⟩

end Heap

namespace Bases

/-! ## What corresponds -/

/-- The same failure of an arena, with twins for addresses. -/
inductive Balked (z : Bases) : ArenaError → ArenaError → Prop
  | reserve {cause : String} : Balked z (.reserve cause) (.reserve cause)
  | exhausted {requested remaining : Nat} :
      Balked z (.exhausted requested remaining) (.exhausted requested remaining)
  | discontiguous {p q p' q' : Nat} : z.Twin p q → z.Twin p' q' →
      Balked z (.discontiguous p p') (.discontiguous q q')
  | tooLarge {requested : Nat} : Balked z (.tooLarge requested) (.tooLarge requested)

/-- The same refusal. Addresses out of bounds need not be twins, as long as both are. -/
inductive Refused (z : Bases) : HeapError → HeapError → Prop
  | arena {e e' : ArenaError} : z.Balked e e' → Refused z (.arena e) (.arena e')
  | invalidAddress {p q : Nat} {fault : AddressFault} :
      z.Twin p q → Refused z (.invalidAddress p fault) (.invalidAddress q fault)
  | outOfBounds {p q : Nat} :
      Refused z (.invalidAddress p .outOfBounds) (.invalidAddress q .outOfBounds)
  | sizeOverflow {count elemSize : Nat} :
      Refused z (.sizeOverflow count elemSize) (.sizeOverflow count elemSize)
  | requestTooLarge {size : Nat} : Refused z (.requestTooLarge size) (.requestTooLarge size)

/-- Stopped for the same reason. -/
inductive Stopped (z : Bases) : Stop → Stop → Prop
  | refused {e e' : HeapError} : z.Refused e e' → Stopped z (.refused e) (.refused e')
  | fault {f g : Fault} : Stopped z (.fault f) (.fault g)
  | corrupted {op : Operation} {c d : Corruption} :
      z.Found c d → Stopped z (.corrupted op c) (.corrupted op d)

/-- Two attempts: both with answers, that are related, or both refused for the same reason. -/
inductive Attempted {α β : Type} (z : Bases) (R : α → β → Prop) : Except HeapError α →
    Except HeapError β → Prop
  | ok {a : α} {b : β} : R a b → Attempted z R (.ok a) (.ok b)
  | error {e e' : HeapError} : z.Refused e e' → Attempted z R (.error e) (.error e')

section Arenas

variable {A B : Type} [Arena A] [Arena B]

/-- Both extensions have given bytes that start at twins, or both have failed in the same way. -/
inductive Extended (z : Bases) (P : A → B → Prop) : EStateM.Result ArenaError A Nat →
    EStateM.Result ArenaError B Nat → Prop
  | ok {p q : Nat} {a : A} {b : B} : z.Twin p q → P a b → Extended z P (.ok p a) (.ok q b)
  | error {e e' : ArenaError} {a : A} {b : B} : z.Balked e e' → P a b →
      Extended z P (.error e a) (.error e' b)

/-- Arenas that are so related have the same bytes at their two bases, now and after each
    extension. -/
structure Arenas (z : Bases) (P : A → B → Prop) : Prop where
  low {a : A} {b : B} : P a b → Arena.low a = z.here ∧ Arena.low b = z.there
  high {a : A} {b : B} : P a b → z.Twin (Arena.high a) (Arena.high b)
  within {a : A} {b : B} : P a b → Arena.high a ≤ z.here + z.extent
  extend {a : A} {b : B} (bytes : Nat) : P a b →
  z.Extended P (Arena.extend bytes a) (Arena.extend bytes b)

end Arenas

structure Heaps {A B : Type} (z : Bases) (P : A → B → Prop) (h : Heap A) (g : Heap B) : Prop where
  arena : P h.arena g.arena
  store : z.Stores h.store g.store
  prologue : z.Twin h.prologue g.prologue
  config : h.config = g.config

/-- Two new heaps, or the same failure to make one, unless one side runs out of words. -/
inductive Started {A B : Type} (z : Bases) (P : A → B → Prop) : EStateM.Result Stop (Heap A) Unit →
    EStateM.Result Stop (Heap B) Unit → Prop
  | ok {h : Heap A} {g : Heap B} : z.Heaps P h g → Started z P (.ok () h) (.ok () g)
  | error {e e' : Stop} {h : Heap A} {g : Heap B} : z.Stopped e e' →
      Started z P (.error e h) (.error e' g)
  | here {h : Heap A} {v : EStateM.Result Stop (Heap B) Unit} :
      Started z P (.error (.fault .overflow) h) v
  | there {u : EStateM.Result Stop (Heap A) Unit} {g : Heap B} :
      Started z P u (.error (.fault .overflow) g)

def heaps {A B : Type} (z : Bases) (P : A → B → Prop) : Kinship Stop (Heap A) (Heap B) where
  states := z.Heaps P
  errors := z.Stopped
  spent := .fault .overflow

variable {A B : Type} {z : Bases} {P : A → B → Prop} {α β : Type} {R : α → β → Prop} {p q : Nat}
  {r s : Region}

theorem Started.of_ends {u : EStateM.Result Stop (Heap A) Unit}
    {v : EStateM.Result Stop (Heap B) Unit} (huv : (z.heaps P).Ends Eq u v) :
    z.Started P u v := by
  cases huv with
  | ok _ hh => exact .ok hh
  | error he _ => exact .error he
  | here => exact .here
  | there => exact .there

/-! ## Steps of a heap -/

theorem keeping_store {x : StoreM α} {y : StoreM β} (hxy : z.stores.Steps R x y) :
    (z.heaps P).Steps R (liftM x : HeapM A α) (liftM y : HeapM B β) := by
  intro h g hh
  rw [HeapM.lift_store, HeapM.lift_store]
  have hxy := hxy h.store g.store hh.store
  generalize x h.store = u at hxy ⊢
  generalize y g.store = v at hxy ⊢
  cases hxy with
  | ok hab hs => exact .ok hab ⟨hh.arena, hs, hh.prologue, hh.config⟩
  | error _ hs => exact .error .fault ⟨hh.arena, hs, hh.prologue, hh.config⟩
  | here => exact .here
  | there => exact .there

theorem keeping_writing {x : Writing α} {y : Writing β} (hxy : z.memories.Steps R x y) :
    (z.heaps P).Steps R (liftM x : HeapM A α) (liftM y : HeapM B β) :=
  keeping_store (filing_writing hxy)

theorem keeping_reading {x : Reading α} {y : Reading β} (hxy : z.Reads R x y) :
    (z.heaps P).Steps R (liftM x : HeapM A α) (liftM y : HeapM B β) :=
  keeping_writing (writing_reading hxy)

theorem keeping_except {x : Except Fault α} {y : Except Fault β} (hxy : Alike R x y) :
    (z.heaps P).Steps R (liftM x : HeapM A α) (liftM y : HeapM B β) :=
  keeping_writing (writing_except hxy)

theorem emit (e e' : Event) :
    (z.heaps P).Steps Eq (Heap.emit e : HeapM A Unit) (Heap.emit e' : HeapM B Unit) :=
  .modify fun _ _ hh => ⟨hh.arena, hh.store, hh.prologue, hh.config⟩

theorem log (e e' : Event) :
    (z.heaps P).Steps Eq (Heap.log e : HeapM A Unit) (Heap.log e' : HeapM B Unit) :=
  .bind_get fun _ _ hh => .ite (by rw [hh.config]) (fun _ => emit e e') fun _ => .pure rfl

theorem refuse {e e' : HeapError} (he : z.Refused e e') :
    (z.heaps P).Steps R (Heap.refuse e : HeapM A α) (Heap.refuse e' : HeapM B β) :=
  .throw (.refused he)

theorem modifyMemory {f g : Memory → Memory} (hfg : ∀ m n, z.Mirror m n → z.Mirror (f m) (g n)) :
    (z.heaps P).Steps Eq (Heap.modifyMemory f : HeapM A Unit)
      (Heap.modifyMemory g : HeapM B Unit) :=
  .modify fun _ _ hh => ⟨hh.arena, ⟨hfg _ _ hh.store.memory, hh.store.heads⟩,
    hh.prologue, hh.config⟩

theorem attempt_ends {x : HeapM A α} {y : HeapM B β} {h : Heap A} {g : Heap B}
    (hxy : (z.heaps P).Ends R (x h) (y g)) :
    (z.heaps P).Ends (z.Attempted R) (Heap.attempt x h) (Heap.attempt y g) := by
  unfold Heap.attempt
  generalize x h = u at hxy ⊢
  generalize y g = v at hxy ⊢
  cases hxy with
  | ok hab hh => exact .ok (.ok hab) hh
  | error he hh =>
    cases he with
    | refused he => exact .ok (.error he) hh
    | fault => exact .error .fault hh
    | corrupted hc => exact .error (.corrupted hc) hh
  | here => exact .here
  | there => exact .there

theorem attempt {x : HeapM A α} {y : HeapM B β} (hxy : (z.heaps P).Steps R x y) :
    (z.heaps P).Steps (z.Attempted R) (Heap.attempt x) (Heap.attempt y) :=
    fun h g hh => attempt_ends (hxy h g hh)

theorem Heaps.firstBlock {h : Heap A} {g : Heap B} (hh : z.Heaps P h g) :
    z.Twin h.firstBlock g.firstBlock := by
  have := hh.prologue
  simp only [Heap.firstBlock]
  omega

namespace Arenas

variable [Arena A] [Arena B]

theorem region (hP : z.Arenas P) :
    (z.heaps P).Steps z.Regions (Heap.region : HeapM A Region) (Heap.region : HeapM B Region) := by
  refine .bind_get fun h g hh => keeping_except ?_
  obtain ⟨hlow, hlow'⟩ := hP.low hh.arena
  have hhigh := hP.high hh.arena
  have hwithin := hP.within hh.arena
  have haligned := z.here_aligned
  have haligned' := z.there_aligned
  simp only [Region.between, hlow, hlow', haligned, haligned', and_true]
  split
  · rw [if_pos (by omega)]
    exact .ok ⟨rfl, rfl, hhigh, hwithin⟩
  · rw [if_neg (by omega)]
    exact .fault

theorem claimOrTell (hP : z.Arenas P) (bytes : Nat) :
    (z.heaps P).Steps z.Twin (Heap.claimOrTell bytes : HeapM A Nat)
      (Heap.claimOrTell bytes : HeapM B Nat) := by
  intro h g hh
  rw [Heap.claimOrTell_apply, Heap.claimOrTell_apply]
  have hext := hP.extend bytes hh.arena
  generalize Arena.extend bytes h.arena = u at hext ⊢
  generalize Arena.extend bytes g.arena = v at hext ⊢
  cases hext with
  | ok hpq hab => exact .ok hpq ⟨hab, hh.store, hh.prologue, hh.config⟩
  | @error e e' a b he hab =>
    have hh' : z.Heaps P { h with arena := a } { g with arena := b } :=
      ⟨hab, hh.store, hh.prologue, hh.config⟩
    have htold := log (.cannotGrow bytes) (.cannotGrow bytes) _ _ hh'
    rw [Heap.log_told, Heap.log_told] at htold
    cases htold with
    | ok _ hh' => exact .error (.refused (.arena he)) hh'

/-! ## Checking -/

theorem validate (hP : z.Arenas P) :
    (z.heaps P).Steps (z.Judged Eq) (Heap.validate : HeapM A _) (Heap.validate : HeapM B _) :=
  .bind_get fun _ _ hh => hP.region.bind fun _ _ hz =>
    keeping_reading (hz.audit hh.store.heads hh.prologue)

theorem checkAfter (hP : z.Arenas P) (op : Operation) :
    (z.heaps P).Steps Eq (Heap.checkAfter op : HeapM A Unit)
      (Heap.checkAfter op : HeapM B Unit) := by
  unfold Heap.checkAfter
  refine .bind_get fun h g hh =>
    .ite (by rw [hh.config]) (fun _ => hP.validate.bind fun _ _ hjudged => ?_) fun _ => .pure rfl
  cases hjudged with
  | ok => exact .pure rfl
  | error hc => exact .bind (emit _ _) fun _ _ _ => .throw (.corrupted hc)

/-! ## Allocating -/

theorem grow (hP : z.Arenas P) (words : Nat) :
    (z.heaps P).Steps z.Twin (Heap.grow words : HeapM A Nat) (Heap.grow words : HeapM B Nat) := by
  unfold Heap.grow
  refine .bind_eq (keeping_except (.refl _)) fun words =>
    .ite Iff.rfl (fun _ => .halt (.refused .requestTooLarge)) fun _ => ?_
  refine (hP.claimOrTell _).bind fun p q hpq => hP.region.bind fun r s hz => ?_
  refine .bind_eq (keeping_reading (hz.tag hpq)) fun tag =>
    .bind (keeping_writing (hz.writeFree hpq _ _)) fun _ _ _ => ?_
  refine .bind (keeping_reading (hz.above hpq)) fun _ _ habove =>
    .bind (keeping_writing (hz.writeAllocated habove _ _)) fun _ _ _ => ?_
  exact .bind (log _ _) fun _ _ _ => keeping_store (hz.coalesce hpq)

theorem take (hP : z.Arenas P) (request size : Nat) (tells : Bool) (hpq : z.Twin p q) :
    (z.heaps P).Steps z.Twin (Heap.take request size p tells : HeapM A Nat)
      (Heap.take request size q tells : HeapM B Nat) := by
  unfold Heap.take
  refine hP.region.bind fun r s hz => .bind (keeping_store (hz.place hpq size)) fun _ _ _ =>
    .ite Iff.rfl (fun _ => ?_) fun _ => .pure hpq
  exact .bind (keeping_reading (hz.size hpq)) fun _ _ _ => .bind (emit _ _) fun _ _ _ => .pure hpq

theorem allocateBlock (hP : z.Arenas P) (request : Nat) :
    (z.heaps P).Steps z.Twin (Heap.allocateBlock request : HeapM A Nat)
      (Heap.allocateBlock request : HeapM B Nat) := by
  unfold Heap.allocateBlock
  rcases Heap.blockSize_cases request with hsize | ⟨size, hsize, -⟩
  · simp only [hsize]
    exact .halt (.refused .requestTooLarge)
  simp only [hsize]
  refine .bind_eq (.pure rfl) fun size => hP.region.bind fun r s hz => .bind_get fun h g hh => ?_
  rw [hh.config]
  refine .bind (keeping_reading (hz.findFit hh.store.heads size)) fun _ _ hfound => ?_
  cases hfound with
  | none => exact .bind (hP.grow _) fun _ _ hpq => hP.take request size _ hpq
  | some hpq => exact .bind (R := z.Twin) (.pure hpq) fun _ _ hpq => hP.take request size _ hpq

end Arenas

/-! ## Addresses -/

section Addresses

variable [Arena A] [Arena B]

/-- Two addresses that correspond while the heaps do: both null, or neither, and then at the
    same distance from the bases or both out of bounds. -/
inductive Names (z : Bases) (h : Heap A) (g : Heap B) : Nat → Nat → Prop
  | null : Names z h g 0 0
  | twin {p q : Nat} : p ≠ 0 → q ≠ 0 → z.Twin p q → Names z h g p q
  | outside {p q : Nat} : p ≠ 0 → q ≠ 0 → h.Outside p → g.Outside q → Names z h g p q

theorem Names.null_iff {h : Heap A} {g : Heap B} (hn : z.Names h g p q) : p = 0 ↔ q = 0 := by
  cases hn with
  | null => exact Iff.rfl
  | twin hp hq => exact iff_of_false hp hq
  | outside hp hq => exact iff_of_false hp hq

end Addresses

namespace Arenas

variable [Arena A] [Arena B] {h : Heap A} {g : Heap B}

theorem checkAddress_twin (hP : z.Arenas P) (hpq : z.Twin p q) :
    (z.heaps P).Steps (fun _ _ => z.Twin p q) (Heap.checkAddress p : HeapM A Unit)
      (Heap.checkAddress q : HeapM B Unit) := by
  unfold Heap.checkAddress
  refine hP.region.bind fun r s hz => .bind_get fun h g hh =>
    .ite ?_ (fun _ => .halt (.refused .outOfBounds)) fun _ => ?_
  · have := hh.firstBlock
    have := hz.high
    simp only [Bool.or_eq_true, decide_eq_true_eq]
    omega
  refine .bind_eq (keeping_except (alike_isAligned hpq)) fun _ =>
    .ite Iff.rfl (fun _ => .halt (.refused (.invalidAddress hpq))) fun _ => ?_
  refine .bind_eq (keeping_reading (hz.tag hpq)) fun tag =>
    .ite ?_ (fun _ => refuse (.invalidAddress hpq)) fun _ => .pure hpq
  have := hz.high
  simp only [Bool.or_eq_true, decide_eq_true_eq]
  exact or_congr Iff.rfl (by omega)

theorem checkAddress_outside {R : Unit → Unit → Prop} (hP : z.Arenas P) (hh : z.Heaps P h g)
    (hp : h.Outside p) (hq : g.Outside q) :
    (z.heaps P).Ends R (Heap.checkAddress p h) (Heap.checkAddress q g) := by
  refine (hP.region h g hh).bind fun r s h₁ g₁ hr hs _ hh₁ => ?_
  obtain ⟨rfl, rfl, -⟩ := Heap.region_ok.mp hr
  obtain ⟨rfl, rfl, -⟩ := Heap.region_ok.mp hs
  simp only [HeapM.bind_apply, HeapM.get_apply]
  rw [if_pos (by simpa [Heap.Outside] using hp), if_pos (by simpa [Heap.Outside] using hq)]
  exact .error (.refused .outOfBounds) hh₁

/-- An address that is accepted has a twin. -/
theorem checkAddress (hP : z.Arenas P) (hh : z.Heaps P h g) (hn : z.Names h g p q) :
    (z.heaps P).Ends (fun _ _ => z.Twin p q) (Heap.checkAddress p h) (Heap.checkAddress q g) := by
  cases hn with
  | null => exact hP.checkAddress_outside hh (.inl (Nat.succ_pos _)) (.inl (Nat.succ_pos _))
  | twin _ _ hpq => exact hP.checkAddress_twin hpq h g hh
  | outside _ _ hp hq => exact hP.checkAddress_outside hh hp hq

/-! ## Operations -/

theorem allocate (hP : z.Arenas P) (size : Nat) :
    (z.heaps P).Steps z.Twins (Heap.allocate size : HeapM A _)
      (Heap.allocate size : HeapM B _) := by
  unfold Heap.allocate
  refine .ite Iff.rfl (fun _ => .pure .none) fun _ =>
    .bind (attempt (hP.allocateBlock size)) fun _ _ hnew => ?_
  cases hnew with
  | error => exact .pure .none
  | ok hpq => exact (hP.checkAfter _).bind fun _ _ _ => .pure (.some hpq)

theorem tryRelease (hP : z.Arenas P) (hh : z.Heaps P h g) (hn : z.Names h g p q) :
    (z.heaps P).Ends Eq (Heap.tryRelease p h) (Heap.tryRelease q g) := by
  unfold Heap.tryRelease
  by_cases hp : p = 0
  · rw [if_pos hp, if_pos (hn.null_iff.mp hp)]
    exact .ok rfl hh
  rw [if_neg hp, if_neg (mt hn.null_iff.mpr hp)]
  refine (hP.checkAddress hh hn).bind fun _ _ h₁ g₁ _ _ hpq hh₁ => ?_
  have htail : (z.heaps P).Steps Eq (do
      let r ← Heap.region
      let size ← r.size p
      Store.free r p
      Heap.log (.released size p)
      Heap.checkAfter .release : HeapM A Unit) (do
      let r ← Heap.region
      let size ← r.size q
      Store.free r q
      Heap.log (.released size q)
      Heap.checkAfter .release : HeapM B Unit) :=
    hP.region.bind fun r s hz => .bind (keeping_reading (hz.size hpq)) fun _ _ _ =>
      .bind (keeping_store (hz.free hpq)) fun _ _ _ =>
      .bind (log _ _) fun _ _ _ => hP.checkAfter _
  exact htail h₁ g₁ hh₁

omit [Arena A] [Arena B] in
/-- A plain operation: whatever is made of a refusal. -/
theorem ends_attempt {γ δ : Type} {Q : γ → δ → Prop} {x : HeapM A α} {y : HeapM B β}
    {f : Except HeapError α → HeapM A γ} {k : Except HeapError β → HeapM B δ}
    (hxy : (z.heaps P).Ends R (x h) (y g))
    (hok : ∀ a b, R a b → (z.heaps P).Steps Q (f (.ok a)) (k (.ok b)))
    (herror : ∀ e e', z.Refused e e' → (z.heaps P).Steps Q (f (.error e)) (k (.error e'))) :
    (z.heaps P).Ends Q ((Heap.attempt x >>= f) h) ((Heap.attempt y >>= k) g) := by
  refine (attempt_ends hxy).bind fun u v h₁ g₁ _ _ huv hh₁ => ?_
  cases huv with
  | ok hab => exact hok _ _ hab h₁ g₁ hh₁
  | error he => exact herror _ _ he h₁ g₁ hh₁

theorem release (hP : z.Arenas P) (hh : z.Heaps P h g) (hn : z.Names h g p q) :
    (z.heaps P).Ends Eq (Heap.release p h) (Heap.release q g) := by
  refine ends_attempt (hP.tryRelease hh hn) (fun _ _ _ => .pure rfl) fun e e' he => ?_
  cases he with
  | invalidAddress | outOfBounds => exact log _ _
  | arena | sizeOverflow | requestTooLarge => exact .pure rfl

/-- The bytes that move must be among those that correspond. -/
theorem move (hP : z.Arenas P) {size : Nat} (request : Nat) (hpq : z.Twin p q) (hlow : z.here ≤ p)
    (hfits : p + (size - 8) ≤ z.here + z.extent) :
    (z.heaps P).Steps z.Twin (Heap.move p size request : HeapM A Nat)
      (Heap.move q size request : HeapM B Nat) := by
  unfold Heap.move
  refine (hP.allocateBlock request).bind fun new new' hnew => hP.region.bind fun r s hz => ?_
  refine .bind (modifyMemory fun m n hm => hm.copy hpq hlow (by simp only [wordSize]; omega) hnew)
    fun _ _ _ => ?_
  exact .bind (keeping_store (hz.free hpq)) fun _ _ _ => .pure hnew

/-- A block gets its new size in place, or moves. -/
theorem resize {γ δ : Type} {Q : γ → δ → Prop} {f : Nat → HeapM A γ} {k : Nat → HeapM B δ}
    (hP : z.Arenas P) (hz : z.Regions r s) {old : Nat} (size request : Nat) (hpq : z.Twin p q)
    (hlow : z.here ≤ p) (hfits : p + (old - 8) ≤ z.here + z.extent)
    (hf : ∀ new new', z.Twin new new' → (z.heaps P).Steps Q (f new) (k new')) :
    (z.heaps P).Steps Q
      (do let new ← if size ≤ old then do Store.split r p size; pure p
            else do
              let grown ← Store.growInPlace r p size
              if grown then pure p else Heap.move p old request
          f new)
      (do let new ← if size ≤ old then do Store.split s q size; pure q
            else do
              let grown ← Store.growInPlace s q size
              if grown then pure q else Heap.move q old request
          k new) := by
  refine .ite Iff.rfl
    (fun _ => .bind (keeping_store (hz.split hpq size)) fun _ _ _ => hf p q hpq) fun _ => ?_
  refine .bind_eq (keeping_store (hz.growInPlace hpq size)) fun _ =>
    .ite Iff.rfl (fun _ => hf p q hpq) fun _ => ?_
  exact .bind (hP.move request hpq hlow hfits) hf

theorem tryReallocate (hP : z.Arenas P) (hh : z.Heaps P h g) (hn : z.Names h g p q)
    (request : Nat) :
    (z.heaps P).Ends z.Twins (Heap.tryReallocate p request h) (Heap.tryReallocate q request g) := by
  unfold Heap.tryReallocate
  by_cases h0 : request = 0
  · rw [if_pos h0, if_pos h0]
    exact (hP.tryRelease hh hn).bind fun _ _ _ _ _ _ _ hh₁ => .ok .none hh₁
  rw [if_neg h0, if_neg h0]
  by_cases hp : p = 0
  · rw [if_pos hp, if_pos (hn.null_iff.mp hp)]
    have hnew : (z.heaps P).Steps z.Twins
      (do let bp ← Heap.allocateBlock request; Heap.checkAfter .reallocate; return some bp : HeapM A _)
        (do let bp ← Heap.allocateBlock request; Heap.checkAfter .reallocate; return some bp : HeapM B _) :=
      (hP.allocateBlock request).bind fun _ _ hpq => (hP.checkAfter _).bind fun _ _ _ =>
        .pure (.some hpq)
    exact hnew h g hh
  rw [if_neg hp, if_neg (mt hn.null_iff.mpr hp)]
  refine (hP.checkAddress hh hn).bind fun _ _ h₁ g₁ hrun _ hpq hh₁ => ?_
  -- what the address was accepted for bounds the bytes that may have to move
  obtain ⟨rfl, hlow, hfits⟩ := Heap.checkAddress_ok hrun
  rw [(hP.low hh.arena).1] at hlow
  have hwithin := hP.within hh.arena
  rcases Heap.blockSize_cases request with hsize | ⟨size, hsize, -⟩
  · simp only [hsize]
    exact .error (.refused .requestTooLarge) hh₁
  simp only [hsize]
  refine (hP.region h₁ g₁ hh₁).bind fun r s h₂ g₂ hr _ hz hh₂ => ?_
  obtain ⟨rfl, rfl, -⟩ := Heap.region_ok.mp hr
  refine (keeping_reading (hz.size hpq) _ _ hh₂).bind fun old _ h₃ g₃ hold _ heq hh₃ => ?_
  subst heq
  rw [HeapM.lift_reading] at hold
  rcases hread : (⟨Arena.low h₂.arena, Arena.high h₂.arena⟩ : Region).size p h₂.store.memory with
    f | old'
  · rw [hread] at hold
    cases hold
  rw [hread] at hold
  cases hold
  rw [← Region.size_ok hread] at hfits
  have hwhole : p + (old - 8) ≤ z.here + z.extent := Nat.le_trans hfits hwithin
  refine hP.resize hz size request hpq (by omega) hwhole (fun new new' hnew => ?_) _ _ hh₃
  exact .bind (log _ _) fun _ _ _ => (hP.checkAfter _).bind fun _ _ _ => .pure (.some hnew)

theorem reallocate (hP : z.Arenas P) (hh : z.Heaps P h g) (hn : z.Names h g p q) (request : Nat) :
    (z.heaps P).Ends z.Twins (Heap.reallocate p request h) (Heap.reallocate q request g) := by
  refine ends_attempt (hP.tryReallocate hh hn request) (fun _ _ hnew => .pure hnew) fun e e' he =>
    ?_
  cases he with
  | invalidAddress | outOfBounds => exact .bind (log _ _) fun _ _ _ => .pure .none
  | arena | sizeOverflow | requestTooLarge => exact .pure .none

theorem tryZeroAllocate (hP : z.Arenas P) (count elemSize : Nat) :
    (z.heaps P).Steps z.Twins (Heap.tryZeroAllocate count elemSize : HeapM A _)
      (Heap.tryZeroAllocate count elemSize : HeapM B _) := by
  unfold Heap.tryZeroAllocate
  refine .ite Iff.rfl (fun _ => .bind (log _ _) fun _ _ _ => .halt (.refused .sizeOverflow))
    fun _ => .ite Iff.rfl (fun _ => .pure .none) fun _ => ?_
  refine (hP.allocateBlock _).bind fun p q hpq =>
    .bind (modifyMemory fun m n hm => hm.fill hpq 0 _) fun _ _ _ => ?_
  exact (hP.checkAfter _).bind fun _ _ _ => .pure (.some hpq)

theorem zeroAllocate (hP : z.Arenas P) (count elemSize : Nat) :
    (z.heaps P).Steps z.Twins (Heap.zeroAllocate count elemSize : HeapM A _)
      (Heap.zeroAllocate count elemSize : HeapM B _) :=
  fun _ _ hh => ends_attempt (hP.tryZeroAllocate count elemSize _ _ hh)
    (fun _ _ hnew => .pure hnew) fun _ _ _ => .pure .none

/-! ## Questions -/

theorem usableSize (hP : z.Arenas P) (hh : z.Heaps P h g) (hn : z.Names h g p q) :
    (z.heaps P).Ends Eq (Heap.usableSize p h) (Heap.usableSize q g) :=
  ends_attempt (hP.checkAddress hh hn)
    (fun _ _ hpq => hP.region.bind fun _ _ hz => .bind_eq (keeping_reading (hz.size hpq)) fun _ =>
      .pure rfl) fun _ _ _ => .pure rfl

theorem stats (hP : z.Arenas P) :
    (z.heaps P).Steps Eq (Heap.stats : HeapM A Stats) (Heap.stats : HeapM B Stats) :=
  hP.region.bind fun _ _ hz => .bind_get fun _ _ hh => keeping_reading (hz.tally hh.firstBlock)

theorem checkHeap (hP : z.Arenas P) (verbose : Bool) :
    (z.heaps P).Steps (z.Judged Eq) (Heap.checkHeap verbose : HeapM A _)
      (Heap.checkHeap verbose : HeapM B _) := by
  unfold Heap.checkHeap
  refine .ite Iff.rfl (fun _ => .pure (.ok rfl)) fun _ => .bind_get fun h g hh =>
    hP.region.bind fun r s hz => ?_
  have htold (bs bs' : List Block) :
    (z.heaps P).Steps Eq (bs.forM fun block => Heap.emit (Heap.saw block) : HeapM A Unit)
      (bs'.forM fun block => Heap.emit (Heap.saw block) : HeapM B Unit) := by
    intro h g hh
    obtain ⟨trace, hrun⟩ := Heap.saw_run bs h
    obtain ⟨trace', hrun'⟩ := Heap.saw_run bs' g
    rw [hrun, hrun']
    exact .ok rfl ⟨hh.arena, hh.store, hh.prologue, hh.config⟩
  refine .bind (htold _ _) fun _ _ _ => hP.validate.bind fun _ _ hjudged => ?_
  cases hjudged with
  | ok => exact .pure (.ok rfl)
  | error hc => exact .pure (.error hc)

/-! ## New heaps -/

theorem layOut (hP : z.Arenas P) (hpq : z.Twin p q) :
    (z.heaps P).Steps Eq (do
        let r ← Heap.region
        r.write p 0
        r.write (p + wordSize) (Tag.encode ⟨doubleWord, true, true⟩)
        r.write (p + doubleWord) (Tag.encode ⟨doubleWord, true, true⟩)
        r.write (p + 3 * wordSize) (Tag.encode ⟨0, true, true⟩)
        discard <| Heap.grow (← get).config.chunkWords
        Heap.checkAfter .init : HeapM A Unit)
      (do
        let r ← Heap.region
        r.write q 0
        r.write (q + wordSize) (Tag.encode ⟨doubleWord, true, true⟩)
        r.write (q + doubleWord) (Tag.encode ⟨doubleWord, true, true⟩)
        r.write (q + 3 * wordSize) (Tag.encode ⟨0, true, true⟩)
        discard <| Heap.grow (← get).config.chunkWords
        Heap.checkAfter .init : HeapM B Unit) := by
  refine hP.region.bind fun r s hz => ?_
  have hword (d w : Nat) : (z.heaps P).Steps Eq (liftM (r.write (p + d) w) : HeapM A Unit)
      (liftM (s.write (q + d) w)) :=
    keeping_writing (hz.write (by omega) w)
  refine .bind (hword 0 _) fun _ _ _ => .bind (hword _ _) fun _ _ _ =>
    .bind (hword _ _) fun _ _ _ => .bind (hword _ _) fun _ _ _ => ?_
  refine .bind_get fun h g hh => ?_
  rw [hh.config]
  exact .bind (.discard (hP.grow _)) fun _ _ _ => hP.checkAfter _

/-- The first extension decides where the arenas start, so nothing is asked of them before it. -/
theorem start (hP : z.Arenas P) {a : A} {b : B} {m n : Memory}
    (hfirst : z.Extended P (Arena.extend metadataOverhead a) (Arena.extend metadataOverhead b))
    (hm : z.Mirror m n) (config : Config) :
    z.Started P (Heap.start a m config) (Heap.start b n config) := by
  unfold Heap.start Heap.setUp
  rw [HeapM.bind_apply, HeapM.bind_apply, Heap.claim, Heap.claim]
  generalize Arena.extend metadataOverhead a = u at hfirst ⊢
  generalize Arena.extend metadataOverhead b = v at hfirst ⊢
  cases hfirst with
  | error he _ => exact .error (.refused (.arena he))
  | @ok p q a b hpq hab =>
    simp only [HeapM.bind_apply, HeapM.lift_except]
    have haligned := alike_isAligned hpq
    generalize isAligned p = u at haligned ⊢
    generalize isAligned q = v at haligned ⊢
    cases haligned with
    | fault => exact .error .fault
    | here => exact .here
    | there => exact .there
    | @ok aligned _ h =>
      subst h
      cases aligned with
      | false => exact .error .fault
      | true =>
        have hh : z.Heaps P ⟨a, ⟨m, .empty⟩, p + doubleWord, config, #[]⟩
            ⟨b, ⟨n, .empty⟩, q + doubleWord, config, #[]⟩ := by
          refine ⟨hab, ⟨hm, fun cls => ?_⟩, by simp only; omega, rfl⟩
          rw [Buckets.head_empty]
          exact .none
        exact .of_ends (hP.layOut hpq _ _ hh)

end Arenas

end Bases

end BoundaryTag
