/-
  BoundaryTag.Heap.Lemmas — steps on a heap, one after the other.

  A step on the store leaves arena, settings and trace alone; emitting an event changes the trace
  only; `attempt` turns a refusal into an answer and keeps the state that it left.
-/

import BoundaryTag.Heap.Basic
import BoundaryTag.Store.Lemmas

namespace BoundaryTag

variable {A : Type}

namespace HeapM

theorem bind_apply {α β : Type} (x : HeapM A α) (f : α → HeapM A β) (h : Heap A) :
    (x >>= f) h = match x h with
      | .ok a h => f a h
      | .error stop h => .error stop h := by
  cases hx : x h <;> simp only [bind, EStateM.bind, hx]

theorem ite_bind {α β : Type} {c : Prop} [Decidable c] (x y : HeapM A α) (f : α → HeapM A β) :
    (if c then x else y) >>= f = if c then x >>= f else y >>= f := by
  by_cases hc : c
  · rw [if_pos hc, if_pos hc]
  · rw [if_neg hc, if_neg hc]

/-- A step has an answer when its parts have, one after the other. -/
theorem bind_ok {α β : Type} {x : HeapM A α} {f : α → HeapM A β} {h h' : Heap A} {b : β} :
    (x >>= f) h = .ok b h' ↔ ∃ a h₁, x h = .ok a h₁ ∧ f a h₁ = .ok b h' := by
  rw [bind_apply]
  constructor
  · intro hrun
    rcases hx : x h with ⟨a, h₁⟩ | ⟨stop, h₁⟩
    · rw [hx] at hrun
      exact ⟨a, h₁, rfl, hrun⟩
    · rw [hx] at hrun
      cases hrun
  · rintro ⟨a, h₁, hx, hrun⟩
    rw [hx]
    exact hrun

theorem discard_ok {α : Type} {x : HeapM A α} {h h' : Heap A} : discard x h = .ok () h' ↔
    ∃ a, x h = .ok a h' := by
  cases hx : x h <;> simp [discard, Functor.mapConst, EStateM.map, hx]

theorem discard_error {α : Type} {x : HeapM A α} {h h' : Heap A} {stop : Stop}
    (hx : x h = .error stop h') : discard x h = .error stop h' := by
  simp [discard, Functor.mapConst, EStateM.map, hx]

theorem get_apply (h : Heap A) : (get : HeapM A (Heap A)) h = .ok h h := rfl

theorem modify_apply (f : Heap A → Heap A) (h : Heap A) :
    (modify f : HeapM A Unit) h = .ok () (f h) := rfl

theorem pure_apply {α : Type} (a : α) (h : Heap A) : (pure a : HeapM A α) h = .ok a h := rfl

theorem throw_apply {α : Type} (stop : Stop) (h : Heap A) :
    (throw stop : HeapM A α) h = .error stop h := rfl

theorem lift_store {α : Type} (x : StoreM α) (h : Heap A) :
    (liftM x : HeapM A α) h = match x h.store with
      | .ok a store => .ok a { h with store }
      | .error fault store => .error (.fault fault) { h with store } := by
  cases hx : x h.store <;> simp only [liftM, monadLift, MonadLift.monadLift, hx]

theorem lift_reading {α : Type} (x : Reading α) (h : Heap A) :
    (liftM x : HeapM A α) h = match x h.store.memory with
      | .ok a => .ok a h
      | .error fault => .error (.fault fault) h := by
  cases hx : x h.store.memory <;> simp only [liftM, monadLift, MonadLift.monadLift, hx]

theorem lift_writing {α : Type} (x : Writing α) (h : Heap A) :
    (liftM x : HeapM A α) h = match x h.store.memory with
      | .ok a m => .ok a { h with store := { h.store with memory := m } }
      | .error fault m =>
        .error (.fault fault) { h with store := { h.store with memory := m } } := by
  cases hx : x h.store.memory <;> simp only [liftM, monadLift, MonadLift.monadLift, hx]

theorem lift_except {α : Type} (x : Except Fault α) (h : Heap A) :
    (liftM x : HeapM A α) h = match x with
      | .ok a => .ok a h
      | .error fault => .error (.fault fault) h := by
  cases x <;> simp only [liftM, monadLift, MonadLift.monadLift]

end HeapM

namespace Heap

theorem refuse_apply {α : Type} (e : HeapError) (h : Heap A) :
    (refuse e : HeapM A α) h = .error (.refused e) h := rfl

theorem emit_apply (e : Event) (h : Heap A) :
    emit e h = .ok () { h with trace := h.trace.push e } := rfl

theorem log_apply (e : Event) (h : Heap A) :
    log e h = .ok () (if h.config.logEvents then { h with trace := h.trace.push e } else h) := by
  simp only [log, HeapM.bind_apply, HeapM.get_apply]
  cases h.config.logEvents <;> rfl

theorem attempt_refused {α : Type} {x : HeapM A α} {h h' : Heap A} {e : HeapError}
    (hx : x h = .error (.refused e) h') : attempt x h = .ok (.error e) h' := by
  rw [attempt, hx]

theorem attempt_ok {α : Type} {x : HeapM A α} {h h' : Heap A} {a : α} (hx : x h = .ok a h') :
    attempt x h = .ok (.ok a) h' := by
  rw [attempt, hx]

theorem attempt_error {α : Type} {x : HeapM A α} {h h' : Heap A} {e : HeapError}
    (hrun : attempt x h = .ok (.error e) h') : x h = .error (.refused e) h' := by
  rcases hx : x h with ⟨a, h₁⟩ | ⟨stop, h₁⟩
  · rw [attempt_ok hx] at hrun
    cases hrun
  cases stop with
  | refused e' =>
    rw [attempt_refused hx] at hrun
    injection hrun with he hh
    rw [Except.error.inj he, hh]
  | fault | corrupted =>
    rw [attempt, hx] at hrun
    cases hrun

theorem attempt_answer {α : Type} {x : HeapM A α} {h h' : Heap A} {a : α}
    (hrun : attempt x h = .ok (.ok a) h') : x h = .ok a h' := by
  rcases hx : x h with ⟨b, h₁⟩ | ⟨stop, h₁⟩
  · rw [attempt_ok hx] at hrun
    injection hrun with ha hh
    rw [Except.ok.inj ha, hh]
  cases stop with
  | refused e =>
    rw [attempt_refused hx] at hrun
    cases hrun
  | fault | corrupted =>
    rw [attempt, hx] at hrun
    cases hrun

theorem region_eq [Arena A] {h : Heap A} (hle : Arena.low h.arena ≤ Arena.high h.arena)
    (hlow : Arena.low h.arena % wordSize = 0) :
    region h = .ok ⟨Arena.low h.arena, Arena.high h.arena⟩ h := by
  simp only [region, HeapM.bind_apply, HeapM.get_apply, HeapM.lift_except, Region.between,
    if_pos (And.intro hle hlow)]

/-- The arena is looked at as a region only if its bounds make one. -/
theorem region_ok [Arena A] {h h' : Heap A} {r : Region} : region h = .ok r h' ↔
    h' = h ∧ r = ⟨Arena.low h.arena, Arena.high h.arena⟩ ∧ Arena.low h.arena ≤ Arena.high h.arena ∧
    Arena.low h.arena % wordSize = 0 := by
  simp only [region, HeapM.bind_apply, HeapM.get_apply, HeapM.lift_except, Region.between]
  by_cases hb : Arena.low h.arena ≤ Arena.high h.arena ∧ Arena.low h.arena % wordSize = 0
  · simp [hb, eq_comm, and_comm]
  · simp only [if_neg hb, reduceCtorEq, false_iff, not_and]
    exact fun _ _ h1 h2 => hb ⟨h1, h2⟩

theorem write_ok {h h' : Heap A} {r : Region} {addr w : Nat} :
    (liftM (r.write addr w) : HeapM A Unit) h = .ok () h' ↔
    r.low ≤ addr ∧ addr + 8 ≤ r.high ∧
    h' = { h with store := { h.store with memory := h.store.memory.setWord addr w } } := by
  rw [HeapM.lift_writing]
  by_cases hb : r.HoldsWord addr
  · rw [Region.write_eq hb.1 hb.2]
    simp [hb.1, hb.2, eq_comm]
  · rw [Region.write_outside hb]
    simp only [reduceCtorEq, false_iff]
    exact fun hw => hb ⟨hw.1, hw.2.1⟩

end Heap

end BoundaryTag
