/-
  BoundaryTag.Proofs.Twins — the same bytes in two places.

  Two arenas start at different addresses and have the same bytes at the same distances from their
  starts. An address here and the one there at the same distance are twins. A step here and the
  step there that is told twins end alike: with answers that correspond, or both with a fault, and
  the bytes still correspond. Only where a sum passes the end of the address space on one of the
  two sides nothing is said, since how far that end is hangs on where the arena starts.

  Proved: so it is for the codec of blocks and links, since a link is stored as a distance
  (`Regions.nextLink`, `Regions.setNext`), and for the searches along the lists
  (`Regions.slot`, `Regions.findFit`).
-/

import BoundaryTag.Proofs.Footprint
import Mathlib.Data.Option.Defs

namespace BoundaryTag

/-! ## Ending alike -/

/-- Both computations have answers, which are related, or both a fault, unless one of
    them runs out of words. -/
inductive Alike {α β : Type} (R : α → β → Prop) : Except Fault α → Except Fault β → Prop
  | ok {a : α} {b : β} : R a b → Alike R (.ok a) (.ok b)
  | fault {f g : Fault} : Alike R (.error f) (.error g)
  | here {y : Except Fault β} : Alike R (.error .overflow) y
  | there {x : Except Fault α} : Alike R x (.error .overflow)

theorem Alike.refl {α : Type} (x : Except Fault α) : Alike Eq x x := by
  cases x with
  | ok a => exact .ok rfl
  | error f => exact .fault

/-- A way for two computations to end alike that nothing is asked of when both have a fault, or
    one runs out of words. -/
class Lenient {α β : Type} (E : Except Fault α → Except Fault β → Prop) : Prop where
  fault (f g : Fault) : E (.error f) (.error g)
  here (y : Except Fault β) : E (.error .overflow) y
  there (x : Except Fault α) : E x (.error .overflow)

instance {α β : Type} (R : α → β → Prop) : Lenient (Alike R) := ⟨fun _ _ => .fault, fun _ => .here,
      fun _ => .there⟩

theorem Alike.bind {α β γ δ : Type} {R : α → β → Prop} {E : Except Fault γ → Except Fault δ → Prop}
    [Lenient E] {x : Except Fault α} {y : Except Fault β} {f : α → Except Fault γ}
    {g : β → Except Fault δ} (hx : Alike R x y) (hf : ∀ a b, R a b → E (f a) (g b)) :
    E (x.bind f) (y.bind g) := by
  cases hx with
  | ok h => exact hf _ _ h
  | fault => exact Lenient.fault _ _
  | here => exact Lenient.here _
  | there => exact Lenient.there _

/-- What corresponds to what: the states of two runs, and the errors that stop them. -/
structure Kinship (ε σ τ : Type) where
  states : σ → τ → Prop
  errors : ε → ε → Prop
  /-- The error of a side that has run out of words. -/
  spent : ε

namespace Kinship

variable {ε σ τ α β γ δ : Type} {K : Kinship ε σ τ} {R : α → β → Prop} {Q : γ → δ → Prop}

/-- Two steps ended alike, whether they have answers or not, in states that correspond. -/
inductive Ends (K : Kinship ε σ τ) (R : α → β → Prop) : EStateM.Result ε σ α →
    EStateM.Result ε τ β → Prop
  | ok {a : α} {b : β} {s : σ} {t : τ} : R a b → K.states s t → Ends K R (.ok a s) (.ok b t)
  | error {e e' : ε} {s : σ} {t : τ} : K.errors e e' → K.states s t →
      Ends K R (.error e s) (.error e' t)
  | here {s : σ} {y : EStateM.Result ε τ β} : Ends K R (.error K.spent s) y
  | there {x : EStateM.Result ε σ α} {t : τ} : Ends K R x (.error K.spent t)

/-- From states that correspond, the two steps end alike. -/
def Steps (K : Kinship ε σ τ) (R : α → β → Prop) (x : EStateM ε σ α) (y : EStateM ε τ β) : Prop :=
  ∀ s t, K.states s t → K.Ends R (x s) (y t)

theorem Ends.bind {x : EStateM ε σ α} {y : EStateM ε τ β} {f : α → EStateM ε σ γ}
    {g : β → EStateM ε τ δ} {s : σ} {t : τ} (hx : K.Ends R (x s) (y t))
    (hf : ∀ a b s₁ t₁, x s = .ok a s₁ → y t = .ok b t₁ → R a b → K.states s₁ t₁ →
      K.Ends Q (f a s₁) (g b t₁)) :
    K.Ends Q ((x >>= f) s) ((y >>= g) t) := by
  rw [bind_run, bind_run]
  generalize x s = u at hx hf ⊢
  generalize y t = v at hx hf ⊢
  cases hx with
  | ok hab hst => exact hf _ _ _ _ rfl rfl hab hst
  | error he hst => exact .error he hst
  | here => exact .here
  | there => exact .there

namespace Steps

variable {x : EStateM ε σ α} {y : EStateM ε τ β} {f : α → EStateM ε σ γ} {g : β → EStateM ε τ δ}

protected theorem pure {a : α} {b : β} (h : R a b) : K.Steps R (pure a) (pure b) :=
  fun _ _ hst => .ok h hst

protected theorem throw {e e' : ε} (h : K.errors e e') : K.Steps R (throw e) (throw e') :=
  fun _ _ hst => .error h hst

theorem bind (hx : K.Steps R x y) (hf : ∀ a b, R a b → K.Steps Q (f a) (g b)) :
    K.Steps Q (x >>= f) (y >>= g) :=
  fun s t hst => (hx s t hst).bind fun a b s₁ t₁ _ _ hab hst₁ => hf a b hab s₁ t₁ hst₁

theorem bind_eq {y : EStateM ε τ α} {g : α → EStateM ε τ δ} (hx : K.Steps Eq x y)
    (hf : ∀ a, K.Steps Q (f a) (g a)) :
    K.Steps Q (x >>= f) (y >>= g) :=
  hx.bind fun a _ h => h ▸ hf a

theorem halt {e e' : ε} (h : K.errors e e') :
    K.Steps Q ((throw e : EStateM ε σ α) >>= f) ((throw e' : EStateM ε τ β) >>= g) :=
  fun _ _ hst => .error h hst

/-- What is done with the states may hang on where they correspond. -/
theorem bind_get {f : σ → EStateM ε σ γ} {g : τ → EStateM ε τ δ}
    (hf : ∀ s t, K.states s t → K.Steps Q (f s) (g t)) :
    K.Steps Q (get >>= f) (get >>= g) := fun s t hst => hf s t hst s t hst

theorem modify {f : σ → σ} {g : τ → τ} (hf : ∀ s t, K.states s t → K.states (f s) (g t)) :
    K.Steps Eq (modify f) (modify g) := fun s t hst => .ok rfl (hf s t hst)

theorem ite {c d : Prop} [Decidable c] [Decidable d] {x' : EStateM ε σ α} {y' : EStateM ε τ β}
    (hcd : c ↔ d) (hx : c → K.Steps R x y) (hx' : ¬ c → K.Steps R x' y') :
    K.Steps R (if c then x else x') (if d then y else y') := by
  by_cases hc : c
  · rw [if_pos hc, if_pos (hcd.mp hc)]
    exact hx hc
  · rw [if_neg hc, if_neg (fun hd => hc (hcd.mpr hd))]
    exact hx' hc

protected theorem discard (hx : K.Steps R x y) : K.Steps Eq (discard x) (discard y) := by
  intro s t hst
  rw [discard_run, discard_run]
  have hx := hx s t hst
  generalize x s = u at hx ⊢
  generalize y t = v at hx ⊢
  cases hx with
  | ok _ hst => exact .ok rfl hst
  | error he hst => exact .error he hst
  | here => exact .here
  | there => exact .there

end Steps

end Kinship

/-! ## Twins -/

/-- Where two arenas start, both on a word. -/
structure Bases where
  here : Nat
  there : Nat
  /-- The bytes that may ever be handed out, and are looked at. -/
  extent : Nat
  here_aligned : here % wordSize = 0
  there_aligned : there % wordSize = 0

namespace Bases

/-- The two addresses are at the same distance from the starts. -/
abbrev Twin (z : Bases) (p q : Nat) : Prop := p + z.there = q + z.here

/-- Two links: both to nothing, or to twins. -/
abbrev Twins (z : Bases) : Option Nat → Option Nat → Prop := Option.Rel z.Twin

/-- The same bytes at the same distances. -/
def Mirror (z : Bases) (m n : Memory) : Prop :=
  ∀ x < z.extent, m.byte (z.here + x) = n.byte (z.there + x)

/-- The two regions are the two arenas' bytes. -/
structure Regions (z : Bases) (r s : Region) : Prop where
  here : r.low = z.here
  there : s.low = z.there
  high : z.Twin r.high s.high
  within : r.high ≤ z.here + z.extent

/-- The lists start at twins. -/
def Heads (z : Bases) (b b' : Buckets) : Prop := ∀ cls, z.Twins (b.head cls) (b'.head cls)

/-- A place in a list: between twins. -/
def Between (z : Bases) (a b : Option Nat × Option Nat) : Prop := z.Twins a.1 b.1 ∧ z.Twins a.2 b.2

def Linked (z : Bases) (l k : Links) : Prop := z.Twins l.next k.next ∧ z.Twins l.prev k.prev

/-- Two blocks with the same tags, at twin addresses and between twins. -/
inductive Same (z : Bases) : Block → Block → Prop
  | allocated {p q : Nat} {tag : Tag} : z.Twin p q → Same z (.allocated p tag) (.allocated q tag)
  | free {p q : Nat} {tag footer : Tag} {l k : Links} : z.Twin p q → z.Linked l k →
      Same z (.free p tag footer l) (.free q tag footer k)

/-- Two steps that read end in this way over memories with the same bytes. -/
def Looks {α β : Type} (z : Bases) (E : Except Fault α → Except Fault β → Prop) (x : Reading α)
    (y : Reading β) : Prop :=
  ∀ m n, z.Mirror m n → E (x m) (y n)

abbrev Reads {α β : Type} (z : Bases) (R : α → β → Prop) : Reading α → Reading β → Prop :=
  z.Looks (Alike R)

/-- Faults correspond to faults, whichever they are. -/
def memories (z : Bases) : Kinship Fault Memory Memory where
  states := z.Mirror
  errors _ _ := True
  spent := .overflow

/-- As for `Alike`, of two addresses, but one that is below its arena may have no twin: the
    difference is a fault there. -/
inductive Located (z : Bases) : Except Fault Nat → Except Fault Nat → Prop
  | ok {p q : Nat} : z.Twin p q → Located z (.ok p) (.ok q)
  | fault {f g : Fault} : Located z (.error f) (.error g)
  | below {p : Nat} {g : Fault} : p < z.here → Located z (.ok p) (.error g)
  | belowThere {f : Fault} {q : Nat} : q < z.there → Located z (.error f) (.ok q)
  | here {y : Except Fault Nat} : Located z (.error .overflow) y
  | there {x : Except Fault Nat} : Located z x (.error .overflow)

instance (z : Bases) : Lenient z.Located := ⟨fun _ _ => .fault, fun _ => .here, fun _ => .there⟩

/-- Two steps that read lead to twins, if the address is in its arena. -/
abbrev Finds (z : Bases) : Reading Nat → Reading Nat → Prop := z.Looks z.Located

variable {z : Bases} {α β γ δ : Type} {R : α → β → Prop} {Q : γ → δ → Prop} {p q k : Nat}
  {a b : Option Nat} {m n : Memory}

theorem Twins.eq_iff {a' b' : Option Nat} (h : z.Twins a b) (h' : z.Twins a' b') :
    a = a' ↔ b = b' := by
  rcases h with ⟨h⟩ | _ <;> rcases h' with ⟨h'⟩ | _
  · simp only [Option.some.injEq]
    omega
  all_goals simp only [reduceCtorEq]

theorem exists_twin (z : Bases) (hp : z.here ≤ p) : ∃ q, z.Twin p q ∧ z.there ≤ q :=
  ⟨p + z.there - z.here, by omega, by omega⟩

theorem alike_checkedAdd (h : z.Twin p q) (k : Nat) :
    Alike z.Twin (checkedAdd p k) (checkedAdd q k) := by
  unfold checkedAdd
  split
  · split
    · exact .ok (by omega)
    · exact .there
  · exact .here

theorem located_checkedSub (h : z.Twin p q) (k : Nat) :
    z.Located (checkedSub p k) (checkedSub q k) := by
  unfold checkedSub
  split
  · split
    · exact .ok (by omega)
    · exact .below (by omega)
  · split
    · exact .belowThere (by omega)
    · exact .fault

/-! ## Memories -/

namespace Mirror

theorem word (hm : z.Mirror m n) (h : z.Twin p q) (hlow : z.here ≤ p)
    (hhigh : p + 8 ≤ z.here + z.extent) : m.word p = n.word q := by
  unfold Memory.word Memory.read
  congr 1
  refine List.map_congr_left fun i hi => ?_
  have hi := List.mem_range.mp hi
  have := hm (p - z.here + i) (by omega)
  rwa [show z.here + (p - z.here + i) = p + i by omega,
    show z.there + (p - z.here + i) = q + i by omega] at this

theorem setWord (hm : z.Mirror m n) (h : z.Twin p q) (w : Nat) :
    z.Mirror (m.setWord p w) (n.setWord q w) := by
  intro x hx
  rw [Memory.byte_setWord, Memory.byte_setWord, hm x hx]
  by_cases hin : p ≤ z.here + x ∧ z.here + x < p + 8
  · rw [if_pos hin, if_pos (by omega), show z.here + x - p = z.there + x - q by omega]
  · rw [if_neg hin, if_neg (by omega)]

theorem fill (hm : z.Mirror m n) (h : z.Twin p q) (b : UInt8) (count : Nat) :
    z.Mirror (m.fill p b count) (n.fill q b count) := by
  intro x hx
  rw [Memory.byte_fill, Memory.byte_fill, hm x hx]
  by_cases hin : p ≤ z.here + x ∧ z.here + x < p + count
  · rw [if_pos hin, if_pos (by omega)]
  · rw [if_neg hin, if_neg (by omega)]

theorem store (hm : z.Mirror m n) (h : z.Twin p q) (bytes : List UInt8) :
    z.Mirror (m.store p bytes) (n.store q bytes) := by
  intro x hx
  rw [Memory.byte_store, Memory.byte_store, hm x hx]
  by_cases hin : p ≤ z.here + x
  · rw [if_pos hin, if_pos (by omega), show z.here + x - p = z.there + x - q by omega]
  · rw [if_neg hin, if_neg (by omega)]

/-- What is copied must be among the bytes that correspond. -/
theorem copy {src src' count : Nat} (hm : z.Mirror m n) (hsrc : z.Twin src src')
    (hlow : z.here ≤ src) (hhigh : src + count ≤ z.here + z.extent) (h : z.Twin p q) :
    z.Mirror (m.copy src p count) (n.copy src' q count) := by
  intro x hx
  rw [Memory.byte_copy, Memory.byte_copy, hm x hx]
  by_cases hin : p ≤ z.here + x ∧ z.here + x < p + count
  · have := hm (src - z.here + (z.here + x - p)) (by omega)
    rw [show z.here + (src - z.here + (z.here + x - p)) = src + (z.here + x - p) by omega,
      show z.there + (src - z.here + (z.here + x - p)) = src' + (z.there + x - q) by omega] at this
    rw [if_pos hin, if_pos (by omega), this]
  · rw [if_neg hin, if_neg (by omega)]

end Mirror

/-! ## Reading -/

namespace Looks

variable {E : Except Fault γ → Except Fault δ → Prop} {x : Reading α} {y : Reading β}
  {f : α → Reading γ} {g : β → Reading δ}

protected theorem pure {a : α} {b : β} (h : R a b) : z.Reads R (pure a) (pure b) :=
  fun _ _ _ => .ok h

theorem lift {x : Except Fault γ} {y : Except Fault δ} (h : E x y) :
    z.Looks E (liftM x) (liftM y) := fun _ _ _ => h

variable [Lenient E]

protected theorem throw (e e' : Fault) : z.Looks E (throw e) (throw e') :=
  fun _ _ _ => Lenient.fault e e'

theorem bind (hx : z.Reads R x y) (hf : ∀ a b, R a b → z.Looks E (f a) (g b)) :
    z.Looks E (x >>= f) (y >>= g) :=
  fun m n hm => (hx m n hm).bind fun a b hab => hf a b hab m n hm

theorem bind_eq {y : Reading α} {g : α → Reading δ} (hx : z.Reads Eq x y)
    (hf : ∀ a, z.Looks E (f a) (g a)) :
    z.Looks E (x >>= f) (y >>= g) :=
  hx.bind fun a _ h => h ▸ hf a

theorem halt (e e' : Fault) : z.Looks E (throw e >>= f) (throw e' >>= g) :=
  fun _ _ _ => Lenient.fault e e'

omit [Lenient E] in
theorem ite {c d : Prop} [Decidable c] [Decidable d] {x x' : Reading γ} {y y' : Reading δ}
    (hcd : c ↔ d) (hx : z.Looks E x y) (hx' : z.Looks E x' y') :
    z.Looks E (if c then x else x') (if d then y else y') := by
  by_cases hc : c
  · rw [if_pos hc, if_pos (hcd.mp hc)]
    exact hx
  · rw [if_neg hc, if_neg (fun hd => hc (hcd.mpr hd))]
    exact hx'

/-- An address that is below an arena is a fault there as soon as it is used. -/
theorem located {x y : Reading Nat} {f : Nat → Reading γ} {g : Nat → Reading δ} (hx : z.Finds x y)
    (hf : ∀ p q, z.Twin p q → z.Looks E (f p) (g q))
    (hlow : ∀ p < z.here, ∀ m, ∃ e, f p m = .error e)
    (hlow' : ∀ q < z.there, ∀ n, ∃ e, g q n = .error e) : z.Looks E (x >>= f) (y >>= g) := by
  intro m n hm
  rw [Reading.bind_apply, Reading.bind_apply]
  have hx := hx m n hm
  generalize x m = u at hx ⊢
  generalize y n = v at hx ⊢
  cases hx with
  | ok h => exact hf _ _ h m n hm
  | fault => exact Lenient.fault _ _
  | below h =>
    obtain ⟨e, he⟩ := hlow _ h m
    simp only [Except.bind, he]
    exact Lenient.fault _ _
  | belowThere h =>
    obtain ⟨e, he⟩ := hlow' _ h n
    simp only [Except.bind, he]
    exact Lenient.fault _ _
  | here => exact Lenient.here _
  | there => exact Lenient.there _

end Looks

/-! ## Writing -/

/-- Two steps that write end alike. -/
abbrev Writes (z : Bases) (x y : Writing Unit) : Prop := z.memories.Steps Eq x y

theorem writing_reading {x : Reading α} {y : Reading β} (h : z.Reads R x y) :
    z.memories.Steps R (liftM x : Writing α) (liftM y) := by
  intro m n hm
  rw [Writing.lift_reading, Writing.lift_reading]
  have h := h m n hm
  generalize x m = u at h ⊢
  generalize y n = v at h ⊢
  cases h with
  | ok h => exact .ok h hm
  | fault => exact .error trivial hm
  | here => exact .here
  | there => exact .there

theorem writing_lift (x : Except Fault α) :
    (liftM x : Writing α) = liftM (liftM x : Reading α) := by
  funext m
  rw [Writing.lift_except, Writing.lift_reading, Reading.lift_apply]

theorem writing_except {x : Except Fault α} {y : Except Fault β} (h : Alike R x y) :
    z.memories.Steps R (liftM x : Writing α) (liftM y) := by
  rw [writing_lift, writing_lift]
  exact writing_reading (.lift h)

/-- As for reading: an address below an arena is a fault there, and nothing is written. -/
theorem writing_located {x y : Reading Nat} {f : Nat → Writing α} {g : Nat → Writing β}
    (hx : z.Finds x y) (hf : ∀ p q, z.Twin p q → z.memories.Steps R (f p) (g q))
    (hlow : ∀ p < z.here, ∀ m, ∃ e, f p m = .error e m)
    (hlow' : ∀ q < z.there, ∀ n, ∃ e, g q n = .error e n) :
    z.memories.Steps R (liftM x >>= f) (liftM y >>= g) := by
  intro m n hm
  rw [Writing.bind_apply, Writing.bind_apply, Writing.lift_reading, Writing.lift_reading]
  have hx := hx m n hm
  generalize x m = u at hx ⊢
  generalize y n = v at hx ⊢
  cases hx with
  | ok h => exact hf _ _ h m n hm
  | fault => exact .error trivial hm
  | @below p _ h =>
    obtain ⟨e, he⟩ := hlow p h m
    simp only [he]
    exact .error trivial hm
  | @belowThere _ q h =>
    obtain ⟨e, he⟩ := hlow' q h n
    simp only [he]
    exact .error trivial hm
  | here => exact .here
  | there => exact .there

end Bases

namespace Region

variable {r : Region} {p : Nat}

/-! ## Below the region -/

theorem read_low (h : p < r.low) (m : Memory) : ∃ e, r.read p m = .error e :=
  ⟨_, if_neg fun hw => by have := hw.1; omega⟩

theorem write_low (h : p < r.low) (w : Nat) (m : Memory) : ∃ e, r.write p w m = .error e m :=
  ⟨_, write_outside (fun hw => by have := hw.1; omega) w⟩

theorem tag_low (h : p < r.low) (m : Memory) : ∃ e, r.tag p m = .error e := by
  have hout : ¬ r.Contains p := fun hin => by have := hin.1; omega
  exact ⟨.outside p,
    by simp only [tag, header, if_neg hout, Reading.bind_apply, Reading.lift_apply, Except.bind]⟩

end Region

namespace Bases

variable {z : Bases} {α β γ δ : Type} {R : α → β → Prop} {Q : γ → δ → Prop} {p q k : Nat}
  {a b : Option Nat} {m n : Memory}

/-! ## The codec -/

namespace Regions

variable {r s : Region}

theorem holds_iff (hz : z.Regions r s) (h : z.Twin p q) : r.HoldsWord p ↔ s.HoldsWord q := by
  have := hz.high
  simp only [Region.HoldsWord, hz.here, hz.there, wordSize]
  omega

theorem contains_iff (hz : z.Regions r s) (h : z.Twin p q) : r.Contains p ↔ s.Contains q := by
  have := hz.high
  simp only [Region.Contains, hz.here, hz.there]
  omega

theorem span_eq (hz : z.Regions r s) : r.span = s.span := by
  have := hz.high
  simp only [Region.span, hz.here, hz.there]
  omega

theorem read (hz : z.Regions r s) (h : z.Twin p q) : z.Reads Eq (r.read p) (s.read q) := by
  intro m n hm
  by_cases hin : r.HoldsWord p
  · have hin' := (hz.holds_iff h).mp hin
    have := hz.within
    have := hz.here ▸ hin.1
    rw [Region.read_eq hin.1 hin.2, Region.read_eq hin'.1 hin'.2]
    exact .ok (hm.word h this (by have := hin.2; simp only [wordSize] at this; omega))
  · rw [Region.read, Region.read, if_neg hin, if_neg (mt (hz.holds_iff h).mpr hin)]
    exact .fault

theorem write (hz : z.Regions r s) (h : z.Twin p q) (w : Nat) :
    z.Writes (r.write p w) (s.write q w) := by
  intro m n hm
  by_cases hin : r.HoldsWord p
  · have hin' := (hz.holds_iff h).mp hin
    rw [Region.write_eq hin.1 hin.2, Region.write_eq hin'.1 hin'.2]
    exact .ok rfl (hm.setWord h w)
  · rw [Region.write_outside hin, Region.write_outside (mt (hz.holds_iff h).mpr hin)]
    exact .error trivial hm

theorem header (hz : z.Regions r s) (h : z.Twin p q) : z.Located (r.header p) (s.header q) := by
  unfold Region.header
  by_cases hin : r.Contains p
  · rw [if_pos hin, if_pos ((hz.contains_iff h).mp hin)]
    exact located_checkedSub h _
  · rw [if_neg hin, if_neg (mt (hz.contains_iff h).mpr hin)]
    exact .fault

/-- A word that is read at a place that may lie below the arenas. -/
theorem read_located {E : Except Fault α → Except Fault β → Prop} [Lenient E] {x y : Reading Nat}
    {f : Nat → Reading α} {g : Nat → Reading β} (hz : z.Regions r s) (hx : z.Finds x y)
    (hf : ∀ w, z.Looks E (f w) (g w)) :
    z.Looks E (x >>= fun a => r.read a >>= f) (y >>= fun a => s.read a >>= g) := by
  refine .located hx (fun p q h => (hz.read h).bind ?_) (fun p hp m => ?_) fun q hq n => ?_
  · rintro w _ rfl
    exact hf w
  · obtain ⟨e, he⟩ := Region.read_low (hz.here ▸ hp) m
    exact ⟨e, by rw [Reading.bind_apply, he, Except.bind]⟩
  · obtain ⟨e, he⟩ := Region.read_low (hz.there ▸ hq) n
    exact ⟨e, by rw [Reading.bind_apply, he, Except.bind]⟩

/-- A word that is written at a place that may lie below the arenas. -/
theorem write_located {x y : Reading Nat} {w : Nat} {f g : Writing Unit} (hz : z.Regions r s)
    (hx : z.Finds x y) (hf : z.Writes f g) : z.Writes (liftM x >>= fun a => r.write a w >>=
      fun _ => f) (liftM y >>= fun a => s.write a w >>= fun _ => g) := by
  refine writing_located hx (fun p q h => (hz.write h w).bind fun _ _ _ => hf)
    (fun p hp m => ?_) fun q hq n => ?_
  · obtain ⟨e, he⟩ := Region.write_low (hz.here ▸ hp) w m
    exact ⟨e, by rw [Writing.bind_apply, he]⟩
  · obtain ⟨e, he⟩ := Region.write_low (hz.there ▸ hq) w n
    exact ⟨e, by rw [Writing.bind_apply, he]⟩

/-- The last word that is written. -/
theorem write_located_last {x y : Reading Nat} (hz : z.Regions r s) (hx : z.Finds x y) (w : Nat) :
    z.Writes (liftM x >>= fun a => r.write a w) (liftM y >>= fun a => s.write a w) :=
  writing_located hx (fun _ _ h => hz.write h w) (fun _ hp m => Region.write_low (hz.here ▸ hp) w m)
    fun _ hq n => Region.write_low (hz.there ▸ hq) w n

theorem tag (hz : z.Regions r s) (h : z.Twin p q) : z.Reads Eq (r.tag p) (s.tag q) :=
  hz.read_located (.lift (hz.header h)) fun _ => .pure rfl

theorem size (hz : z.Regions r s) (h : z.Twin p q) : z.Reads Eq (r.size p) (s.size q) :=
  (hz.tag h).bind_eq fun _ => .pure rfl

theorem footer (hz : z.Regions r s) (h : z.Twin p q) : z.Finds (r.footer p) (s.footer q) :=
  (hz.size h).bind_eq fun size => .bind (.lift (alike_checkedAdd h size)) fun _ _ hend =>
    .lift (located_checkedSub hend _)

theorem footerTag (hz : z.Regions r s) (h : z.Twin p q) :
    z.Reads Eq (r.footerTag p) (s.footerTag q) :=
  hz.read_located (hz.footer h) fun _ => .pure rfl

theorem above (hz : z.Regions r s) (h : z.Twin p q) : z.Reads z.Twin (r.above p) (s.above q) :=
  (hz.size h).bind_eq fun size => .lift (alike_checkedAdd h size)

theorem below (hz : z.Regions r s) (h : z.Twin p q) : z.Finds (r.below p) (s.below q) :=
  (hz.tag h).bind_eq fun _ => .ite Iff.rfl (.halt _ _) <|
    hz.read_located (.lift (located_checkedSub h _)) fun _ => .lift (located_checkedSub h _)

theorem writeAllocated (hz : z.Regions r s) (h : z.Twin p q) (size : Nat) (prevAlloc : Bool) :
    z.Writes (r.writeAllocated p size prevAlloc) (s.writeAllocated q size prevAlloc) := by
  unfold Region.writeAllocated
  simp only [writing_lift]
  exact hz.write_located_last (.lift (hz.header h)) _

theorem writeFree (hz : z.Regions r s) (h : z.Twin p q) (size : Nat) (prevAlloc : Bool) :
    z.Writes (r.writeFree p size prevAlloc) (s.writeFree q size prevAlloc) := by
  unfold Region.writeFree
  simp only [writing_lift]
  refine hz.write_located (.lift (hz.header h))
    (.bind (writing_reading (.lift (alike_checkedAdd h size))) fun _ _ hend => ?_)
  exact hz.write_located_last (.lift (located_checkedSub hend _)) _

theorem setPrevAlloc (hz : z.Regions r s) (h : z.Twin p q) (prevAlloc : Bool) :
    z.Writes (r.setPrevAlloc p prevAlloc) (s.setPrevAlloc q prevAlloc) := by
  unfold Region.setPrevAlloc
  simp only [writing_lift]
  refine .bind_eq (writing_reading (hz.tag h)) fun tag =>
    .ite Iff.rfl (fun _ => ?_) fun _ => .pure rfl
  refine hz.write_located (.lift (hz.header h)) (.ite Iff.rfl (fun _ => ?_) fun _ => .pure rfl)
  exact hz.write_located_last (hz.footer h) _

/-! ## Links -/

theorem encodeLink (hz : z.Regions r s) (h : z.Twins a b) :
    Alike Eq (r.encodeLink a) (s.encodeLink b) := by
  cases h with
  | none => exact .ok rfl
  | @some p q h =>
    rw [Region.encodeLink, Region.encodeLink, hz.here, hz.there]
    unfold checkedSub
    by_cases hle : z.here ≤ p
    · rw [if_pos hle, if_pos (by omega)]
      exact .ok (by omega)
    · rw [if_neg hle, if_neg (by omega)]
      exact .fault

theorem decodeLink (hz : z.Regions r s) (offset : Nat) :
    Alike z.Twins (r.decodeLink offset) (s.decodeLink offset) := by
  unfold Region.decodeLink
  rw [hz.here, hz.there]
  by_cases h0 : offset = 0
  · rw [if_pos h0, if_pos h0]
    exact .ok .none
  · rw [if_neg h0, if_neg h0]
    refine Alike.bind (R := z.Twin) ?_ fun p q h => .ok (.some h)
    -- the one sum that a word of the memory decides: it may pass the last address on one side only
    exact alike_checkedAdd (Nat.add_comm _ _) offset

theorem nextLink (hz : z.Regions r s) (h : z.Twin p q) :
    z.Reads z.Twins (r.nextLink p) (s.nextLink q) :=
  (hz.read h).bind_eq fun offset => .lift (hz.decodeLink offset)

theorem prevLink (hz : z.Regions r s) (h : z.Twin p q) :
    z.Reads z.Twins (r.prevLink p) (s.prevLink q) :=
  .bind (.lift (alike_checkedAdd h _)) fun _ _ h => (hz.read h).bind_eq fun offset =>
    .lift (hz.decodeLink offset)

theorem links (hz : z.Regions r s) (h : z.Twin p q) : z.Reads z.Linked (r.links p) (s.links q) :=
  (hz.nextLink h).bind fun _ _ hnext => (hz.prevLink h).bind fun _ _ hprev => .pure ⟨hnext, hprev⟩

theorem setNext (hz : z.Regions r s) (h : z.Twin p q) (hlink : z.Twins a b) :
    z.Writes (r.setNext p a) (s.setNext q b) :=
  .bind_eq (writing_except (hz.encodeLink hlink)) fun offset => hz.write h offset

theorem setPrev (hz : z.Regions r s) (h : z.Twin p q) (hlink : z.Twins a b) :
    z.Writes (r.setPrev p a) (s.setPrev q b) :=
  .bind (writing_except (alike_checkedAdd h _)) fun _ _ h =>
    .bind_eq (writing_except (hz.encodeLink hlink)) fun offset => hz.write h offset

theorem block (hz : z.Regions r s) (h : z.Twin p q) : z.Reads z.Same (r.block p) (s.block q) := by
  refine (hz.tag h).bind_eq fun tag => .ite Iff.rfl (.pure (.allocated h)) ?_
  refine (hz.footerTag h).bind_eq fun footer => ?_
  exact (hz.links h).bind fun _ _ hlinks => .pure (.free h hlinks)

/-! ## Searching -/

variable {bs bs' : Buckets}

theorem slotFrom (hz : z.Regions r s) (size fuel : Nat) {prev prev' cur cur' : Option Nat}
    (hprev : z.Twins prev prev') (hcur : z.Twins cur cur') : z.Reads z.Between
      (Buckets.slotFrom r size fuel prev cur) (Buckets.slotFrom s size fuel prev' cur') := by
  induction fuel generalizing prev prev' cur cur' with
  | zero =>
    cases hcur with
    | none => exact .pure ⟨hprev, .none⟩
    | some h => exact .throw _ _
  | succ fuel ih =>
    cases hcur with
    | none => exact .pure ⟨hprev, .none⟩
    | some h =>
      refine (hz.size h).bind_eq fun _ => .ite Iff.rfl (.pure ⟨hprev, .some h⟩) ?_
      exact (hz.nextLink h).bind fun _ _ hnext => ih (.some h) hnext

theorem slot (hz : z.Regions r s) (hh : z.Heads bs bs') (cls size : Nat) :
    z.Reads z.Between (Buckets.slot r bs cls size) (Buckets.slot s bs' cls size) := by
  refine .ite Iff.rfl (.pure ⟨.none, hh cls⟩) ?_
  rw [hz.span_eq]
  exact hz.slotFrom size _ .none (hh cls)

theorem findIn (hz : z.Regions r s) (size fuel : Nat) {cur cur' : Option Nat}
    (hcur : z.Twins cur cur') :
    z.Reads z.Twins (Buckets.findIn r size fuel cur) (Buckets.findIn s size fuel cur') := by
  induction fuel generalizing cur cur' with
  | zero =>
    cases hcur with
    | none => exact .pure .none
    | some h => exact .throw _ _
  | succ fuel ih =>
    cases hcur with
    | none => exact .pure .none
    | some h =>
      refine (hz.nextLink h).bind fun _ _ hnext => ?_
      exact (hz.size h).bind_eq fun _ => .ite Iff.rfl (.pure (.some h)) (ih hnext)

theorem findAmong (hz : z.Regions r s) (hh : z.Heads bs bs') (size : Nat) (classes : List Nat) :
    z.Reads z.Twins (Buckets.findAmong r bs size classes)
      (Buckets.findAmong s bs' size classes) := by
  induction classes with
  | nil => exact .pure .none
  | cons cls rest ih =>
    unfold Buckets.findAmong
    rw [hz.span_eq]
    refine (hz.findIn size _ (hh cls)).bind fun _ _ hfound => ?_
    cases hfound with
    | none => exact ih
    | some h => exact .pure (.some h)

theorem findFit (hz : z.Regions r s) (hh : z.Heads bs bs') (size : Nat) :
    z.Reads z.Twins (Buckets.findFit r bs size) (Buckets.findFit s bs' size) :=
  .bind_eq (.lift (.refl _)) fun _ => hz.findAmong hh size _

end Regions

end Bases

end BoundaryTag
