/-
  BoundaryTag.Proofs.Watching — a heap does the same when its arena is watched.

  A heap over a watched arena is a heap and a record of what its arena was asked for. Leaving
  out the record is no step that a heap could tell: each of its steps, from a heap over the
  watched arena, ends as it does from the heap over the arena itself (`Unseen`). So what a run
  asked the arena for can be read off the run of its watched heap.

  Proved: so it is for every allocation (`Unseen.allocate`) and for every list of them
  (`Unseen.allocations`).
-/

import BoundaryTag.Arena.Watched
import BoundaryTag.Heap.Call
import BoundaryTag.Proofs.Serving

namespace BoundaryTag.Heap

variable {A : Type} {α β : Type}

/-- The heap over the arena that is watched. -/
def unwatched (h : Heap (Watched A)) : Heap A := { h with arena := h.arena.arena }

/-- The heap, with its arena watched from now on. -/
def watched (h : Heap A) : Heap (Watched A) := { h with arena := ⟨h.arena, []⟩ }

theorem unwatched_told (h : Heap (Watched A)) (e : Event) :
    (h.told e).unwatched = h.unwatched.told e := by
  unfold told
  rw [show h.unwatched.config = h.config from rfl]
  split <;> rfl

/-- The same end of a step, over the arena that is watched. -/
def unwatchedEnd : EStateM.Result Stop (Heap (Watched A)) α → EStateM.Result Stop (Heap A) α
  | .ok a h => .ok a h.unwatched
  | .error stop h => .error stop h.unwatched

/-- The step ends the same whether or not the arena is watched. -/
def Unseen (x : HeapM (Watched A) α) (y : HeapM A α) : Prop :=
  ∀ h, y h.unwatched = unwatchedEnd (x h)

namespace Unseen

variable {x : HeapM (Watched A) α} {y : HeapM A α}

/-- What a step does when the arena is watched from now on, it does unwatched. -/
theorem run (hu : Unseen x y) {h : Heap A} {e : EStateM.Result Stop (Heap (Watched A)) α}
    (hrun : x h.watched = e) :
    y h = unwatchedEnd e := hrun ▸ hu h.watched

theorem pure (a : α) : Unseen (pure a : HeapM (Watched A) α) (pure a) := fun _ => rfl

theorem throw (stop : Stop) : Unseen (throw stop : HeapM (Watched A) α) (throw stop) := fun _ => rfl

theorem refuse (e : HeapError) : Unseen (refuse e : HeapM (Watched A) α) (refuse e) := fun _ => rfl

theorem bind {f : α → HeapM (Watched A) β} {g : α → HeapM A β} (hx : Unseen x y)
    (hf : ∀ a, Unseen (f a) (g a)) :
    Unseen (x >>= f) (y >>= g) := by
  intro h
  rw [HeapM.bind_apply, HeapM.bind_apply, hx h]
  rcases x h with ⟨a, h'⟩ | ⟨stop, h'⟩
  · exact hf a h'
  · rfl

/-- What is done with the heap may look at all of it but its arena's record. -/
theorem bind_get {f : Heap (Watched A) → HeapM (Watched A) β} {g : Heap A → HeapM A β}
    (hf : ∀ h, Unseen (f h) (g h.unwatched)) :
    Unseen (get >>= f) (get >>= g) := fun h => hf h h

theorem ite {c : Prop} [Decidable c] {x' : HeapM (Watched A) α} {y' : HeapM A α} (hx : Unseen x y)
    (hx' : Unseen x' y') :
    Unseen (if c then x else x') (if c then y else y') := by
  split
  · exact hx
  · exact hx'

theorem store (x : StoreM α) : Unseen (liftM x : HeapM (Watched A) α) (liftM x) := by
  intro h
  rw [HeapM.lift_store, HeapM.lift_store, show h.unwatched.store = h.store from rfl]
  rcases x h.store with ⟨a, s⟩ | ⟨fault, s⟩ <;> rfl

theorem reading (x : Reading α) : Unseen (liftM x : HeapM (Watched A) α) (liftM x) := by
  intro h
  rw [HeapM.lift_reading, HeapM.lift_reading, show h.unwatched.store = h.store from rfl]
  rcases x h.store.memory with fault | a <;> rfl

theorem writing (x : Writing α) : Unseen (liftM x : HeapM (Watched A) α) (liftM x) := by
  intro h
  rw [HeapM.lift_writing, HeapM.lift_writing, show h.unwatched.store = h.store from rfl]
  rcases x h.store.memory with ⟨a, m⟩ | ⟨fault, m⟩ <;> rfl

theorem except (x : Except Fault α) : Unseen (liftM x : HeapM (Watched A) α) (liftM x) := by
  intro h
  rcases x with fault | a <;> rfl

theorem emit (e : Event) : Unseen (emit e : HeapM (Watched A) Unit) (emit e) := fun _ => rfl

theorem log (e : Event) : Unseen (log e : HeapM (Watched A) Unit) (log e) := by
  unfold Heap.log
  exact .bind_get fun h => .ite (.emit e) (.pure _)

theorem attempt (hx : Unseen x y) : Unseen (attempt x) (attempt y) := by
  intro h
  rw [Heap.attempt, Heap.attempt, hx h]
  rcases x h with ⟨a, h'⟩ | ⟨stop, h'⟩
  · rfl
  · cases stop <;> rfl

variable [Arena A]

theorem region : Unseen (region : HeapM (Watched A) Region) region := by
  unfold Heap.region
  exact .bind_get fun h => .except _

theorem claimOrTell (bytes : Nat) :
    Unseen (claimOrTell bytes : HeapM (Watched A) Nat) (claimOrTell bytes) := by
  intro h
  rw [claimOrTell_apply, claimOrTell_apply, Watched.extend_apply,
    show h.unwatched.arena = h.arena.arena from rfl]
  rcases Arena.extend bytes h.arena.arena with ⟨start, a⟩ | ⟨e, a⟩
  · rfl
  · exact congrArg (EStateM.Result.error _)
      (unwatched_told { h with arena := ⟨a, h.arena.asked ++ [bytes]⟩ } _).symm

theorem checkAfter (op : Operation) :
    Unseen (checkAfter op : HeapM (Watched A) Unit) (checkAfter op) := by
  unfold Heap.checkAfter validate
  refine .bind_get fun h =>
    .ite (.bind (.bind_get fun h => .bind .region fun r => .reading _) fun judged => ?_) (.pure _)
  cases judged with
  | error corruption => exact .bind (.emit _) fun _ => .throw _
  | ok _ => exact .pure _

theorem grow (words : Nat) : Unseen (grow words : HeapM (Watched A) Nat) (grow words) := by
  unfold Heap.grow
  refine .bind (.except _) fun words => .ite (.bind (.refuse _) fun _ => ?_) ?_
  all_goals
    refine .bind (.claimOrTell _) fun bp => .bind .region fun r => .bind (.reading _) fun _ =>
      .bind (.writing _) fun _ => ?_
    exact .bind (.reading _) fun _ => .bind (.writing _) fun _ => .bind (.log _) fun _ => .store _

theorem take (request size bp : Nat) (log : Bool) :
    Unseen (take request size bp log : HeapM (Watched A) Nat) (take request size bp log) := by
  unfold Heap.take
  exact .bind .region fun r => .bind (.store _) fun _ =>
    .ite (.bind (.reading _) fun _ => .bind (.emit _) fun _ => .pure _) (.pure _)

theorem allocateBlock (request : Nat) :
    Unseen (allocateBlock request : HeapM (Watched A) Nat) (allocateBlock request) := by
  unfold Heap.allocateBlock
  rcases blockSize request with e | size
  on_goal 1 => refine .bind (.refuse e) fun size => ?_
  on_goal 2 => refine .bind (.pure size) fun size => ?_
  all_goals
    refine .bind .region fun r => .bind_get fun h => .bind (.reading _) fun found => ?_
    cases found with
    | some bp => exact .bind (.pure bp) fun bp => .take request size bp _
    | none => exact .bind (.grow _) fun bp => .take request size bp _

theorem allocate (size : Nat) :
    Unseen (allocate size : HeapM (Watched A) (Option Nat)) (allocate size) := by
  unfold Heap.allocate
  refine .ite (.pure _) (.bind (.attempt (.allocateBlock size)) fun answer => ?_)
  cases answer with
  | error e => exact .pure _
  | ok bp => exact .bind (.checkAfter _) fun _ => .pure _

theorem allocations (ns : List Nat) :
    Unseen (Call.run (ns.map .allocate) : HeapM (Watched A) _) (Call.run (ns.map .allocate)) := by
  induction ns with
  | nil => exact .pure _
  | cons n ns ih =>
    exact .bind (.attempt (.allocate n)) fun answer => .bind ih fun answers => .pure _

end Unseen

variable [Arena A]

theorem Answers.unwatched {x : HeapM (Watched A) α} {y : HeapM A α} {g g' : Heap (Watched A)}
    {a : α} (hx : Answers x g a g') (hu : Unseen x y) : Answers y g.unwatched a g'.unwatched := by
  refine ⟨fun hc => ?_, fun hc => ?_⟩
  · rw [hu g, hx.run hc]
    rfl
  · rw [hu g, hx.halt hc]
    rfl

variable [LawfulArena A] {row : List Tile} {idx : Index}

theorem Laid.watched {h : Heap A} (hl : Laid h row idx) : Laid h.watched row idx :=
  ⟨hl.sound, hl.sane, hl.low_aligned, hl.header, hl.footer⟩

theorem Laid.unwatched {h : Heap (Watched A)} (hl : Laid h row idx) : Laid h.unwatched row idx :=
  ⟨hl.sound, hl.sane, hl.low_aligned, hl.header, hl.footer⟩

end BoundaryTag.Heap
