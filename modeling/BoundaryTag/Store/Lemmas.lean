/-
  BoundaryTag.Store.Lemmas — steps on a store, one after the other.

  A step that only reads leaves the store as it is; a step that writes changes the memory and no
  bucket; `setHead` changes one bucket's head and no memory. Only `insert` and `remove` do both.
-/

import BoundaryTag.Region.Lemmas
import BoundaryTag.Store

namespace BoundaryTag

namespace StoreM

theorem bind_apply {α β : Type} (x : StoreM α) (f : α → StoreM β) (s : Store) :
    (x >>= f) s = match x s with
      | .ok a s => f a s
      | .error fault s => .error fault s := by
  cases hx : x s <;> simp only [bind, EStateM.bind, hx]

theorem pure_apply {α : Type} (a : α) (s : Store) : (pure a : StoreM α) s = .ok a s := rfl

theorem get_apply (s : Store) : (get : StoreM Store) s = .ok s s := rfl

theorem discard_apply {α : Type} (x : StoreM α) (s : Store) :
    (discard x : StoreM Unit) s = match x s with
      | .ok _ s => .ok () s
      | .error fault s => .error fault s := by
  cases hx : x s <;> simp only [discard, Functor.mapConst, Function.comp, EStateM.map, hx,
    Function.const]

theorem lift_writing {α : Type} (x : Writing α) (s : Store) :
    (liftM x : StoreM α) s = match x s.memory with
      | .ok a m => .ok a { s with memory := m }
      | .error fault m => .error fault { s with memory := m } := by
  cases hx : x s.memory <;> simp only [liftM, monadLift, MonadLift.monadLift, hx]

theorem lift_reading {α : Type} (x : Reading α) (s : Store) :
    (liftM x : StoreM α) s = match x s.memory with
      | .ok a => .ok a s
      | .error fault => .error fault s := by
  cases hx : x s.memory <;> simp only [liftM, monadLift, MonadLift.monadLift, hx]

theorem lift_except {α : Type} (x : Except Fault α) (s : Store) :
    (liftM x : StoreM α) s = match x with
      | .ok a => .ok a s
      | .error fault => .error fault s := by
  cases x <;> simp only [liftM, monadLift, MonadLift.monadLift]

end StoreM

namespace Store

theorem setHead_apply (cls : Nat) (bp : Option Nat) (s : Store) :
    setHead cls bp s = .ok () { s with buckets := s.buckets.setHead cls bp } := rfl

end Store

end BoundaryTag
