/-
  BoundaryTag.Proofs.TwinStores — the same blocks in two places.

  The heads of the free lists are addresses, kept outside the arena. Two stores correspond when
  their memories have the same bytes and their lists start at twins.

  Proved: filing, merging, splitting, placing and freeing twins end alike and leave stores that
  correspond (`Regions.coalesce`, `Regions.place`, `Regions.growInPlace`, `Regions.free`).
-/

import BoundaryTag.Proofs.Twins

namespace BoundaryTag.Bases

structure Stores (z : Bases) (s t : Store) : Prop where
  memory : z.Mirror s.memory t.memory
  heads : z.Heads s.buckets t.buckets

def stores (z : Bases) : Kinship Fault Store Store where
  states := z.Stores
  errors _ _ := True
  spent := .overflow

/-- Two steps on stores end alike. -/
abbrev Files (z : Bases) (x y : StoreM Unit) : Prop := z.stores.Steps Eq x y

variable {z : Bases} {α β : Type} {R : α → β → Prop} {p q : Nat} {a b : Option Nat}

theorem filing_writing {x : Writing α} {y : Writing β} (h : z.memories.Steps R x y) :
    z.stores.Steps R (liftM x : StoreM α) (liftM y) := by
  intro s t hst
  rw [StoreM.lift_writing, StoreM.lift_writing]
  have h := h s.memory t.memory hst.memory
  generalize x s.memory = u at h ⊢
  generalize y t.memory = v at h ⊢
  cases h with
  | ok h hm => exact .ok h ⟨hm, hst.heads⟩
  | error h hm => exact .error h ⟨hm, hst.heads⟩
  | here => exact .here
  | there => exact .there

theorem filing_reading {x : Reading α} {y : Reading β} (h : z.Reads R x y) :
    z.stores.Steps R (liftM x : StoreM α) (liftM y) :=
  filing_writing (writing_reading h)

theorem filing_except {x : Except Fault α} {y : Except Fault β} (h : Alike R x y) :
    z.stores.Steps R (liftM x : StoreM α) (liftM y) :=
  filing_writing (writing_except h)

/-- An address below an arena is a fault there when it is used. -/
theorem filing_located {x y : Reading Nat} {f : Nat → StoreM α} {g : Nat → StoreM β}
    (hx : z.Finds x y) (hf : ∀ p q, z.Twin p q → z.stores.Steps R (f p) (g q))
    (hlow : ∀ p < z.here, ∀ s, ∃ e, f p s = .error e s)
    (hlow' : ∀ q < z.there, ∀ t, ∃ e, g q t = .error e t) :
    z.stores.Steps R (liftM x >>= f) (liftM y >>= g) := by
  intro s t hst
  rw [StoreM.bind_apply, StoreM.bind_apply, StoreM.lift_reading, StoreM.lift_reading]
  have hx := hx s.memory t.memory hst.memory
  generalize x s.memory = u at hx ⊢
  generalize y t.memory = v at hx ⊢
  cases hx with
  | ok h => exact hf _ _ h s t hst
  | fault => exact .error trivial hst
  | @below p _ h =>
    obtain ⟨e, he⟩ := hlow p h s
    simp only [he]
    exact .error trivial hst
  | @belowThere _ q h =>
    obtain ⟨e, he⟩ := hlow' q h t
    simp only [he]
    exact .error trivial hst
  | here => exact .here
  | there => exact .there

theorem setHead (cls : Nat) (h : z.Twins a b) :
    z.Files (Store.setHead cls a) (Store.setHead cls b) := by
  refine .modify fun s t hst => ⟨hst.memory, fun c => ?_⟩
  by_cases hcls : cls < bucketCount
  · rw [Buckets.head_setHead _ hcls, Buckets.head_setHead _ hcls]
    by_cases hc : c = cls
    · rw [if_pos hc, if_pos hc]
      exact h
    · rw [if_neg hc, if_neg hc]
      exact hst.heads c
  · have hout (bs : Buckets) (o : Option Nat) : (bs.setHead cls o).head c = bs.head c := by
      simp only [Buckets.head, Buckets.setHead, Vector.getElem?_setIfInBounds]
      split
      · next hc => simp [← hc, hcls]
      · rfl
    simp only [hout]
    exact hst.heads c

namespace Regions

variable {r s : Region}

theorem insert (hz : z.Regions r s) (h : z.Twin p q) :
    z.Files (Store.insert r p) (Store.insert s q) := by
  unfold Store.insert
  refine .bind_eq (filing_reading (hz.size h)) fun size =>
    .bind_eq (filing_except (.refl _)) fun cls => .bind_get fun t t' ht => ?_
  refine .bind (filing_reading (hz.slot ht.heads cls size)) fun ⟨prev, next⟩ ⟨prev',
    next'⟩ ⟨hprev, hnext⟩ => ?_
  refine .bind (filing_writing (hz.setNext h hnext)) fun _ _ _ =>
    .bind (filing_writing (hz.setPrev h hprev)) fun _ _ _ => ?_
  rcases hnext with ⟨hnext⟩ | _
  on_goal 1 => refine .bind (filing_writing (hz.setPrev hnext (.some h))) fun _ _ _ => ?_
  all_goals
    rcases hprev with ⟨hprev⟩ | _
    · exact filing_writing (hz.setNext hprev (.some h))
    · exact setHead cls (.some h)

theorem remove (hz : z.Regions r s) (h : z.Twin p q) :
    z.Files (Store.remove r p) (Store.remove s q) := by
  unfold Store.remove
  refine .bind_eq (filing_reading (hz.size h)) fun size =>
    .bind_eq (filing_except (.refl _)) fun cls => ?_
  refine .bind (filing_reading (hz.links h)) fun ⟨next, prev⟩ ⟨next', prev'⟩ ⟨hnext, hprev⟩ => ?_
  dsimp only at hnext hprev
  rcases hprev with ⟨hprev⟩ | _
  on_goal 1 => refine .bind (filing_writing (hz.setNext hprev hnext)) fun _ _ _ => ?_
  on_goal 2 =>
    have hhead (t t' : Store) (ht : z.Stores t t') : (t.buckets.head cls != some p) = true ↔
        (t'.buckets.head cls != some q) = true := by
      simp only [bne_iff_ne, ne_eq, Twins.eq_iff (ht.heads cls) (.some h)]
    refine .bind_get fun t t' ht => .ite (hhead t t' ht) (fun _ => .halt trivial) fun _ =>
      .bind (setHead cls hnext) fun _ _ _ => ?_
  all_goals
    rcases hnext with ⟨hnext⟩ | _
    · exact filing_writing (hz.setPrev hnext (by first | exact .some hprev | exact .none))
    · exact .pure rfl

/-- The free block is written and filed. -/
theorem refile (hz : z.Regions r s) (h : z.Twin p q) (size : Nat) (prevAlloc : Bool) :
    z.stores.Steps z.Twin (do r.writeFree p size prevAlloc; Store.insert r p; return p)
      (do s.writeFree q size prevAlloc; Store.insert s q; return q) :=
  .bind (filing_writing (hz.writeFree h size prevAlloc)) fun _ _ _ =>
    .bind (hz.insert h) fun _ _ _ => .pure h

/-- The block below, and its tag: an address below the arena has none. -/
theorem below_tag {f : Nat → Tag → StoreM α} {g : Nat → Tag → StoreM β} (hz : z.Regions r s)
    (h : z.Twin p q) (hf : ∀ p q tag, z.Twin p q → z.stores.Steps R (f p tag) (g q tag)) :
    z.stores.Steps R (do let prev ← r.below p; let tag ← r.tag prev; f prev tag)
      (do let prev ← s.below q; let tag ← s.tag prev; g prev tag) := by
  have htag (p q : Nat) (h : z.Twin p q) :=
    (filing_reading (hz.tag h)).bind_eq fun tag => hf p q tag h
  refine filing_located (hz.below h) htag (fun p hp t => ?_) fun q hq t => ?_
  · obtain ⟨e, he⟩ := Region.tag_low (hz.here ▸ hp) t.memory
    exact ⟨e, by rw [StoreM.bind_apply, StoreM.lift_reading, he]⟩
  · obtain ⟨e, he⟩ := Region.tag_low (hz.there ▸ hq) t.memory
    exact ⟨e, by rw [StoreM.bind_apply, StoreM.lift_reading, he]⟩

theorem coalesce (hz : z.Regions r s) (h : z.Twin p q) :
    z.stores.Steps z.Twin (Store.coalesce r p) (Store.coalesce s q) := by
  unfold Store.coalesce
  refine .bind_eq (filing_reading (hz.tag h)) fun tag =>
    .bind (filing_reading (hz.above h)) fun next next' hnext => ?_
  refine .bind_eq (filing_reading (hz.tag hnext)) fun nextTag => ?_
  cases tag.prevAlloc <;> cases nextTag.alloc
  case true.true => exact hz.refile h _ _
  case true.false =>
    exact .bind (hz.remove hnext) fun _ _ _ => .bind_eq (filing_except (.refl _)) fun size =>
      hz.refile h size _
  case false.true =>
    refine hz.below_tag h fun prev prev' prevTag hprev => .bind (hz.remove hprev) fun _ _ _ => ?_
    exact .bind_eq (filing_except (.refl _)) fun size => hz.refile hprev size _
  case false.false =>
    refine hz.below_tag h fun prev prev' prevTag hprev => .bind (hz.remove hprev) fun _ _ _ =>
      .bind (hz.remove hnext) fun _ _ _ => ?_
    exact .bind_eq (filing_except (.refl _)) fun _ => .bind_eq (filing_except (.refl _)) fun size =>
      hz.refile hprev size _

theorem split (hz : z.Regions r s) (h : z.Twin p q) (size : Nat) :
    z.Files (Store.split r p size) (Store.split s q size) := by
  unfold Store.split
  refine .bind_eq (filing_reading (hz.tag h)) fun tag =>
    .ite Iff.rfl (fun _ => .halt trivial) fun _ => .ite Iff.rfl (fun _ => ?_) fun _ => ?_
  · refine .bind (filing_writing (hz.writeAllocated h size _)) fun _ _ _ =>
      .bind (filing_reading (hz.above h)) fun rest rest' hrest => ?_
    refine .bind (filing_writing (hz.writeFree hrest _ _)) fun _ _ _ =>
      .bind (filing_reading (hz.above hrest)) fun _ _ habove => ?_
    exact .bind (filing_writing (hz.setPrevAlloc habove _)) fun _ _ _ =>
      .discard (hz.coalesce hrest)
  · refine .bind (filing_writing (hz.writeAllocated h _ _)) fun _ _ _ =>
      .bind (filing_reading (hz.above h)) fun _ _ habove => ?_
    exact filing_writing (hz.setPrevAlloc habove _)

theorem place (hz : z.Regions r s) (h : z.Twin p q) (size : Nat) :
    z.Files (Store.place r p size) (Store.place s q size) :=
  .bind (hz.remove h) fun _ _ _ => hz.split h size

theorem growInPlace (hz : z.Regions r s) (h : z.Twin p q) (size : Nat) :
    z.stores.Steps Eq (Store.growInPlace r p size) (Store.growInPlace s q size) := by
  unfold Store.growInPlace
  refine .bind_eq (filing_reading (hz.tag h)) fun tag =>
    .bind (filing_reading (hz.above h)) fun next next' hnext => ?_
  refine .bind_eq (filing_reading (hz.tag hnext)) fun nextTag =>
    .ite Iff.rfl (fun _ => .pure rfl) fun _ => ?_
  refine .bind_eq (filing_except (.refl _)) fun total =>
    .ite Iff.rfl (fun _ => .pure rfl) fun _ => ?_
  refine .bind (hz.remove hnext) fun _ _ _ =>
    .bind (filing_writing (hz.writeAllocated h total _)) fun _ _ _ => ?_
  exact .bind (hz.split h size) fun _ _ _ => .pure rfl

theorem free (hz : z.Regions r s) (h : z.Twin p q) : z.Files (Store.free r p) (Store.free s q) := by
  unfold Store.free
  refine .bind_eq (filing_reading (hz.tag h)) fun tag =>
    .bind (filing_writing (hz.writeFree h _ _)) fun _ _ _ => ?_
  refine .bind (filing_reading (hz.above h)) fun _ _ habove =>
    .bind (filing_writing (hz.setPrevAlloc habove _)) fun _ _ _ => ?_
  exact .discard (hz.coalesce h)

end Regions

end BoundaryTag.Bases
