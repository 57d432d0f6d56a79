/-
  BoundaryTag.Proofs.Refusals — a call that fails changes nothing.

  A step is followed through its parts. Parts that only look (`Looks`) leave the heap alone,
  whatever they find; parts that write, file or check refuse nothing (`Unrefusing`). Every
  operation looks first, then may be refused, and only then writes, so that a refusal finds the
  heap as it was (`Atomic`). None of this needs a heap that is in order: all that counts is that
  an arena which cannot grow stays where it is.

  Proved: from any heap, a call that ends in an error or comes to nothing leaves memory, buckets
  and bounds as they were, and with them every block and its bytes (`failed_unchanged`).
-/

import BoundaryTag.Proofs.Runs

namespace BoundaryTag

variable {A : Type}

/-- An extension that fails moves neither end of this arena. -/
def Arena.Steadfast [Arena A] (a : A) : Prop :=
  ∀ bytes e a', Arena.extend bytes a = .error e a' → Arena.low a' = Arena.low a ∧
    Arena.high a' = Arena.high a

theorem LawfulArena.steadfast [Arena A] [LawfulArena A] {a : A} (hs : LawfulArena.Sane a) :
    Arena.Steadfast a := by
  intro bytes e a' hrun
  obtain ⟨hlow, hhigh, -⟩ := LawfulArena.extend_error hs hrun
  exact ⟨hlow, hhigh⟩

namespace Store

/-- A block that does not grow has touched nothing. -/
theorem growInPlace_false {r : Region} {bp size : Nat} {s s' : Store}
    (hrun : growInPlace r bp size s = .ok false s') : s' = s := by
  simp only [growInPlace, StoreM.bind_apply, StoreM.lift_reading] at hrun
  rcases htag : r.tag bp s.memory with f | tag
  · simp [htag] at hrun
  rcases hnext : r.above bp s.memory with f | next
  · simp [htag, hnext] at hrun
  rcases hnextTag : r.tag next s.memory with f | nextTag
  · simp [htag, hnext, hnextTag] at hrun
  simp only [htag, hnext, hnextTag] at hrun
  by_cases halloc : nextTag.alloc = true
  · rw [if_pos halloc] at hrun
    injection hrun with _ hs
    exact hs.symm
  rw [if_neg halloc] at hrun
  simp only [StoreM.bind_apply, StoreM.lift_except] at hrun
  rcases htotal : checkedAdd tag.size nextTag.size with f | total
  · simp [htotal] at hrun
  simp only [htotal] at hrun
  by_cases hsmall : total < size
  · rw [if_pos hsmall] at hrun
    injection hrun with _ hs
    exact hs.symm
  -- from here on the answer can only be that it did grow
  rw [if_neg hsmall] at hrun
  simp only [StoreM.bind_apply, StoreM.lift_writing] at hrun
  rcases hremove : remove r next s with ⟨_, s₁⟩ | ⟨f, s₁⟩
  · simp only [hremove] at hrun
    rcases hwrite : r.writeAllocated bp total tag.prevAlloc s₁.memory with ⟨_, m⟩ | ⟨f, m⟩
    · simp only [hwrite] at hrun
      rcases hsplit : split r bp size { s₁ with memory := m } with ⟨_, s₂⟩ | ⟨f, s₂⟩
      · simp [hsplit, StoreM.pure_apply] at hrun
      · simp [hsplit] at hrun
    · simp [hwrite] at hrun
  · simp [hremove] at hrun

end Store

namespace Heap

variable {α β : Type} {h h' h'' : Heap A} {x : HeapM A α} {f : α → HeapM A β} {addr request : Nat}

/-! ## Steps that answer with an address -/

/-- The step never answers with nothing. -/
def Yielding (x : HeapM A (Option Nat)) : Prop := ∀ h h', x h ≠ .ok none h'

namespace Yielding

theorem some (p : Nat) : Yielding (pure (some p) : HeapM A (Option Nat)) := by
  intro h h' hrun
  cases hrun

theorem bind {f : α → HeapM A (Option Nat)} (hf : ∀ a, Yielding (f a)) : Yielding (x >>= f) := by
  intro h h' hrun
  obtain ⟨a, h₁, -, hrun⟩ := HeapM.bind_ok.mp hrun
  exact hf a h₁ h' hrun

theorem ite {c : Prop} [Decidable c] {x y : HeapM A (Option Nat)} (hx : Yielding x)
    (hy : Yielding y) : Yielding (if c then x else y) := by
  split
  · exact hx
  · exact hy

end Yielding

/-! ## Steps that refuse nothing -/

/-- The step is never refused, whatever else may become of it. -/
def Unrefusing (x : HeapM A α) : Prop := ∀ h e h', x h ≠ .error (.refused e) h'

namespace Unrefusing

theorem pure (a : α) : Unrefusing (pure a : HeapM A α) := by
  intro h e h' hrun
  cases hrun

theorem bind (hx : Unrefusing x) (hf : ∀ a, Unrefusing (f a)) : Unrefusing (x >>= f) := by
  intro h e h' hrun
  rw [HeapM.bind_apply] at hrun
  rcases hy : x h with ⟨a, h₁⟩ | ⟨stop, h₁⟩
  · rw [hy] at hrun
    exact hf a h₁ e h' hrun
  · rw [hy] at hrun
    injection hrun with hstop
    exact hx h e h₁ (hstop ▸ hy)

theorem ite {c : Prop} [Decidable c] {x y : HeapM A α} (hx : Unrefusing x) (hy : Unrefusing y) :
    Unrefusing (if c then x else y) := by
  split
  · exact hx
  · exact hy

theorem store (x : StoreM α) : Unrefusing (liftM x : HeapM A α) := by
  intro h e h' hrun
  rw [HeapM.lift_store] at hrun
  split at hrun <;> cases hrun

theorem reading (x : Reading α) : Unrefusing (liftM x : HeapM A α) := by
  intro h e h' hrun
  rw [HeapM.lift_reading] at hrun
  split at hrun <;> cases hrun

theorem writing (x : Writing α) : Unrefusing (liftM x : HeapM A α) := by
  intro h e h' hrun
  rw [HeapM.lift_writing] at hrun
  split at hrun <;> cases hrun

theorem except (x : Except Fault α) : Unrefusing (liftM x : HeapM A α) := by
  intro h e h' hrun
  rw [HeapM.lift_except] at hrun
  split at hrun <;> cases hrun

theorem get : Unrefusing (get : HeapM A (Heap A)) := by
  intro h e h' hrun
  cases hrun

theorem modify (g : Heap A → Heap A) : Unrefusing (modify g : HeapM A Unit) := by
  intro h e h' hrun
  cases hrun

theorem log (e : Event) : Unrefusing (log e : HeapM A Unit) :=
  .bind .get fun _ => .ite (.modify _) (.pure _)

/-- A refusal that became an answer. -/
theorem attempt (x : HeapM A α) : Unrefusing (attempt x) := by
  intro h e h' hrun
  rw [Heap.attempt] at hrun
  rcases hx : x h with ⟨a, h₁⟩ | ⟨stop, h₁⟩
  · rw [hx] at hrun
    cases hrun
  · rw [hx] at hrun
    cases stop <;> cases hrun

theorem corrupted (op : Operation) (c : Corruption) :
    Unrefusing (throw (.corrupted op c) : HeapM A α) := by
  intro h e h' hrun
  cases hrun

variable [Arena A]

theorem region : Unrefusing (region : HeapM A Region) := .bind .get fun _ => .except _

theorem validate : Unrefusing (validate : HeapM A (Except Corruption Stats)) :=
  .bind .get fun _ => .bind .region fun _ => .reading _

theorem checkAfter (op : Operation) : Unrefusing (checkAfter op : HeapM A Unit) := by
  unfold Heap.checkAfter
  refine .bind .get fun h => .ite (.bind .validate fun verdict => ?_) (.pure _)
  cases verdict with
  | error c => exact .bind (.modify _) fun _ => .corrupted _ _
  | ok _ => exact .pure _

end Unrefusing

variable [Arena A]

/-! ## Steps that only look -/

/-- Memory, buckets, bounds and settings are the same. -/
structure Unchanged (h h' : Heap A) : Prop where
  store : h'.store = h.store
  prologue : h'.prologue = h.prologue
  config : h'.config = h.config
  bounds : h'.bounds = h.bounds

theorem Unchanged.refl (h : Heap A) : Unchanged h h := ⟨rfl, rfl, rfl, rfl⟩

theorem Unchanged.trans (h₁ : Unchanged h h') (h₂ : Unchanged h' h'') : Unchanged h h'' :=
  ⟨h₂.store.trans h₁.store, h₂.prologue.trans h₁.prologue, h₂.config.trans h₁.config,
    h₂.bounds.trans h₁.bounds⟩

theorem unchanged_told (h : Heap A) (e : Event) : Unchanged h (h.told e) := by
  unfold told
  split <;> exact ⟨rfl, rfl, rfl, rfl⟩

/-- Telling what was refused. -/
theorem unchanged_log {e : Event} {u : Unit} (hrun : log e h = .ok u h') : Unchanged h h' := by
  rw [log_told] at hrun
  injection hrun with _ hh
  exact hh ▸ unchanged_told h e

/-- The step leaves the heap as it is, and what comes of it is the same for every heap that is
    the same but for its events. -/
def Looks (x : HeapM A α) : Prop :=
  ∀ h, (∃ a, ∀ h', Unchanged h h' → x h' = .ok a h') ∨ ∃ stop, ∀ h', Unchanged h h' →
    x h' = .error stop h'

namespace Looks

theorem pure (a : α) : Looks (pure a : HeapM A α) := fun _ => .inl ⟨a, fun _ _ => rfl⟩

theorem refuse (e : HeapError) : Looks (refuse e : HeapM A α) := fun _ => .inr ⟨_, fun _ _ => rfl⟩

theorem except (x : Except Fault α) : Looks (liftM x : HeapM A α) := by
  intro h
  rcases hx : x with fault | a
  · exact .inr ⟨_, fun _ _ => rfl⟩
  · exact .inl ⟨_, fun _ _ => rfl⟩

theorem reading (x : Reading α) : Looks (liftM x : HeapM A α) := by
  intro h
  rcases hx : x h.store.memory with fault | a
  · refine .inr ⟨.fault fault, fun h' hu => ?_⟩
    rw [HeapM.lift_reading, hu.store, hx]
  · refine .inl ⟨a, fun h' hu => ?_⟩
    rw [HeapM.lift_reading, hu.store, hx]

theorem region : Looks (region : HeapM A Region) := by
  intro h
  have hrun : ∀ h', Unchanged h h' →
      Heap.region h' = (liftM (Region.between h.bounds.low h.bounds.high) : HeapM A Region) h' := by
    intro h' hu
    rw [← hu.bounds]
    rfl
  rcases except (Region.between h.bounds.low h.bounds.high) h with ⟨r, hr⟩ | ⟨stop, hr⟩
  · exact .inl ⟨r, fun h' hu => (hrun h' hu).trans (hr h' hu)⟩
  · exact .inr ⟨stop, fun h' hu => (hrun h' hu).trans (hr h' hu)⟩

theorem bind (hx : Looks x) (hf : ∀ a, Looks (f a)) : Looks (x >>= f) := by
  intro h
  rcases hx h with ⟨a, ha⟩ | ⟨stop, hstop⟩
  · rcases hf a h with ⟨b, hb⟩ | ⟨stop, hstop⟩
    · refine .inl ⟨b, fun h' hu => ?_⟩
      rw [HeapM.bind_apply, ha h' hu]
      exact hb h' hu
    · refine .inr ⟨stop, fun h' hu => ?_⟩
      rw [HeapM.bind_apply, ha h' hu]
      exact hstop h' hu
  · refine .inr ⟨stop, fun h' hu => ?_⟩
    rw [HeapM.bind_apply, hstop h' hu]

/-- What is done with the heap must not hang on its events or its arena's own state. -/
theorem bind_get {f : Heap A → HeapM A β} (hcongr : ∀ h h', Unchanged h h' → f h' = f h)
    (hf : ∀ h, Looks (f h)) : Looks (get >>= f) := by
  intro h
  have hrun : ∀ h', Unchanged h h' → (get >>= f : HeapM A β) h' = f h h' := by
    intro h' hu
    rw [HeapM.bind_apply, HeapM.get_apply, ← hcongr h h' hu]
  rcases hf h h with ⟨b, hb⟩ | ⟨stop, hstop⟩
  · exact .inl ⟨b, fun h' hu => (hrun h' hu).trans (hb h' hu)⟩
  · exact .inr ⟨stop, fun h' hu => (hrun h' hu).trans (hstop h' hu)⟩

theorem ite {c : Prop} [Decidable c] {x y : HeapM A α} (hx : Looks x) (hy : Looks y) :
    Looks (if c then x else y) := by
  split
  · exact hx
  · exact hy

theorem attempt (hx : Looks x) : Looks (attempt x) := by
  intro h
  rcases hx h with ⟨a, ha⟩ | ⟨stop, hstop⟩
  · exact .inl ⟨.ok a, fun h' hu => attempt_ok (ha h' hu)⟩
  cases stop with
  | refused e => exact .inl ⟨.error e, fun h' hu => attempt_refused (hstop h' hu)⟩
  | fault fault =>
    refine .inr ⟨.fault fault, fun h' hu => ?_⟩
    rw [Heap.attempt, hstop h' hu]
  | corrupted op c =>
    refine .inr ⟨.corrupted op c, fun h' hu => ?_⟩
    rw [Heap.attempt, hstop h' hu]

theorem ok {a : α} (hx : Looks x) (hrun : x h = .ok a h') : h' = h := by
  rcases hx h with ⟨b, hb⟩ | ⟨stop, hstop⟩
  · rw [hb h (Unchanged.refl h)] at hrun
    injection hrun with _ hh
    exact hh.symm
  · rw [hstop h (Unchanged.refl h)] at hrun
    cases hrun

theorem error {stop : Stop} (hx : Looks x) (hrun : x h = .error stop h') : h' = h := by
  rcases hx h with ⟨b, hb⟩ | ⟨stop, hstop⟩
  · rw [hb h (Unchanged.refl h)] at hrun
    cases hrun
  · rw [hstop h (Unchanged.refl h)] at hrun
    injection hrun with _ hh
    exact hh.symm

/-- A look answers the same when nothing has changed. -/
theorem again {a : α} (hx : Looks x) (hrun : x h = .ok a h) (hu : Unchanged h h') :
    x h' = .ok a h' := by
  rcases hx h with ⟨b, hb⟩ | ⟨stop, hstop⟩
  · rw [hb h (Unchanged.refl h)] at hrun
    injection hrun with ha
    rw [← ha]
    exact hb h' hu
  · rw [hstop h (Unchanged.refl h)] at hrun
    cases hrun

theorem again_error {stop : Stop} (hx : Looks x) (hrun : x h = .error stop h)
    (hu : Unchanged h h') : x h' = .error stop h' := by
  rcases hx h with ⟨b, hb⟩ | ⟨stop', hstop⟩
  · rw [hb h (Unchanged.refl h)] at hrun
    cases hrun
  · rw [hstop h (Unchanged.refl h)] at hrun
    injection hrun with hs
    rw [← hs]
    exact hstop h' hu

end Looks

theorem looks_checkAddress (addr : Nat) : Looks (checkAddress addr : HeapM A Unit) := by
  unfold checkAddress
  refine .bind .region fun r => .bind_get (fun h h' hu => ?_) fun h => ?_
  · have hfirst : h'.firstBlock = h.firstBlock := by rw [firstBlock, firstBlock, hu.prologue]
    simp only [hfirst]
  · have hallocated : Looks (do
        let tag ← r.tag addr
        if !tag.alloc || tag.size < minBlock || r.high < addr + (tag.size - wordSize) then
          refuse (.invalidAddress addr .notAllocated) : HeapM A Unit) :=
            .bind (.reading _) fun _ => .ite (.refuse _) (.pure _)
    have haligned : Looks (do
        if !(← isAligned addr) then
          refuse (.invalidAddress addr .misaligned)
        let tag ← r.tag addr
        if !tag.alloc || tag.size < minBlock || r.high < addr + (tag.size - wordSize) then
          refuse (.invalidAddress addr .notAllocated) : HeapM A Unit) :=
      .bind (.except _) fun _ => .ite (.bind (.refuse _) fun _ => hallocated) hallocated
    exact .ite (.bind (.refuse _) fun _ => haligned) haligned

theorem looks_usableSize (addr : Nat) : Looks (usableSize addr : HeapM A (Option Nat)) := by
  unfold usableSize
  refine .bind (looks_checkAddress addr).attempt fun judged => ?_
  cases judged with
  | error e => exact .pure _
  | ok _ => exact .bind .region fun _ => .bind (.reading _) fun _ => .pure _

/-! ## Steps that do all or nothing -/

/-- If the step is refused, over an arena that stays where it is when it cannot grow, nothing
    has changed. -/
def Atomic (x : HeapM A α) : Prop := ∀ h e h', Arena.Steadfast h.arena →
    x h = .error (.refused e) h' → Unchanged h h'

namespace Atomic

theorem of_looks (hx : Looks x) : Atomic x := by
  intro h e h' _ hrun
  rw [hx.error hrun]
  exact Unchanged.refl h

theorem of_unrefusing (hx : Unrefusing x) : Atomic x := fun h e h' _ hrun => absurd hrun (hx h e h')

/-- First look, then act. -/
theorem look (hx : Looks x) (hf : ∀ a, Atomic (f a)) : Atomic (x >>= f) := by
  intro h e h' hs hrun
  rw [HeapM.bind_apply] at hrun
  rcases hy : x h with ⟨a, h₁⟩ | ⟨stop, h₁⟩
  · obtain rfl := hx.ok hy
    rw [hy] at hrun
    exact hf a h₁ e h' hs hrun
  · obtain rfl := hx.error hy
    rw [hy] at hrun
    injection hrun with _ hh
    rw [← hh]
    exact Unchanged.refl h₁

theorem get {f : Heap A → HeapM A β} (hf : ∀ h, Atomic (f h)) : Atomic (get >>= f) := by
  intro h e h' hs hrun
  rw [HeapM.bind_apply, HeapM.get_apply] at hrun
  exact hf h h e h' hs hrun

/-- An event changes nothing that counts. -/
theorem tell (e : Event) {f : Unit → HeapM A β} (hf : Atomic (f ())) : Atomic (log e >>= f) := by
  intro h err h' hs hrun
  rw [HeapM.bind_apply, log_told] at hrun
  have harena : (h.told e).arena = h.arena := by
    unfold told
    split <;> rfl
  exact (unchanged_told h e).trans (hf (h.told e) err h' (by rw [harena]; exact hs) hrun)

/-- After the last step that can be refused. -/
theorem bind (hx : Atomic x) (hf : ∀ a, Unrefusing (f a)) : Atomic (x >>= f) := by
  intro h e h' hs hrun
  rw [HeapM.bind_apply] at hrun
  rcases hy : x h with ⟨a, h₁⟩ | ⟨stop, h₁⟩
  · rw [hy] at hrun
    exact absurd hrun (hf a h₁ e h')
  · rw [hy] at hrun
    injection hrun with hstop hh
    subst hstop hh
    exact hx h e h₁ hs hy

theorem ite {c : Prop} [Decidable c] {x y : HeapM A α} (hx : Atomic x) (hy : Atomic y) :
    Atomic (if c then x else y) := by
  split
  · exact hx
  · exact hy

end Atomic

theorem atomic_claimOrTell (bytes : Nat) : Atomic (claimOrTell bytes : HeapM A Nat) := by
  intro h e h' hs hrun
  rw [claimOrTell_apply] at hrun
  rcases hx : Arena.extend bytes h.arena with ⟨start, a⟩ | ⟨err, a⟩
  · rw [hx] at hrun
    cases hrun
  · obtain ⟨hlow, hhigh⟩ := hs bytes err a hx
    have hu : Unchanged h { h with arena := a } :=
      ⟨rfl, rfl, rfl, by simp only [bounds, hlow, hhigh]⟩
    rw [hx] at hrun
    injection hrun with _ hh
    rw [← hh]
    exact hu.trans (unchanged_told _ _)

/-- Once the arena has grown, nothing is refused. -/
theorem atomic_grow (words : Nat) : Atomic (grow words : HeapM A Nat) := by
  unfold grow
  refine .look (.except _) fun words => .ite (.look (.refuse _) fun _ => ?_) ?_
  all_goals
    refine .bind (atomic_claimOrTell _) fun bp => ?_
    exact .bind .region fun r => .bind (.reading _) fun _ => .bind (.writing _) fun _ =>
      .bind (.reading _) fun _ => .bind (.writing _) fun _ =>
      .bind (.log _) fun _ => .store _

/-- Once a block is found, nothing is refused. -/
theorem atomic_allocateSized (request size : Nat) : Atomic (do
    let r ← region
    let h ← get
    let bp ← match ← h.store.buckets.findFit r size with
      | some bp => pure bp
      | none => grow (max size (h.config.chunkWords * wordSize) / wordSize)
    let r ← region
    Store.place r bp size
    if h.config.logEvents then
      emit (.allocated request (← r.size bp) bp)
    return bp : HeapM A Nat) := by
  refine .look .region fun r => .get fun h => .look (.reading _) fun found => ?_
  have htake : ∀ bp, Unrefusing (do
      let r ← region
      Store.place r bp size
      if h.config.logEvents then
        emit (.allocated request (← r.size bp) bp)
      return bp : HeapM A Nat) := fun bp =>
    .bind .region fun r => .bind (.store _) fun _ =>
      .ite (.bind (.reading _) fun _ => .bind (.modify _) fun _ => .pure _) (.pure _)
  cases found with
  | some bp => exact .look (.pure bp) fun bp => .of_unrefusing (htake bp)
  | none => exact .bind (atomic_grow _) htake

theorem atomic_allocateBlock (request : Nat) : Atomic (allocateBlock request : HeapM A Nat) := by
  unfold allocateBlock
  cases blockSize request with
  | ok size => exact .look (.pure size) (atomic_allocateSized request)
  | error e => exact .look (.refuse e) (atomic_allocateSized request)

/-- Once an address is accepted, nothing is refused. -/
theorem unrefusing_takeBack (addr : Nat) : Unrefusing (do
    let r ← region
    let size ← r.size addr
    Store.free r addr
    log (.released size addr)
    checkAfter .release : HeapM A Unit) :=
  .bind .region fun _ => .bind (.reading _) fun _ => .bind (.store _) fun _ =>
    .bind (.log _) fun _ => .checkAfter _

theorem atomic_tryRelease (addr : Nat) : Atomic (tryRelease addr : HeapM A Unit) := by
  unfold tryRelease
  exact .ite (.of_looks (.pure _))
    (.look (looks_checkAddress addr) fun _ => .of_unrefusing (unrefusing_takeBack addr))

theorem atomic_move (addr size request : Nat) : Atomic (move addr size request : HeapM A Nat) := by
  unfold move
  refine .bind (atomic_allocateBlock request) fun new => ?_
  exact .bind .region fun r => .bind (.modify _) fun _ => .bind (.store _) fun _ => .pure _

/-- The block grows where it is, or it was not touched when the move begins. -/
theorem atomic_growOrMove {r : Region} {addr size : Nat} {f : Nat → HeapM A β}
    (hf : ∀ new, Unrefusing (f new)) {oldSize : Nat} :
    Atomic (do
      let grown ← Store.growInPlace r addr size
      if grown then f addr else move addr oldSize request >>= f) := by
  intro h e h' hs hrun
  rw [HeapM.bind_apply, HeapM.lift_store] at hrun
  rcases hgrow : Store.growInPlace r addr size h.store with ⟨grown, s⟩ | ⟨fault, s⟩
  · simp only [hgrow] at hrun
    cases grown with
    | true => exact absurd hrun (hf addr _ e h')
    | false =>
      obtain rfl := Store.growInPlace_false hgrow
      exact Atomic.bind (atomic_move addr oldSize request) hf h e h' hs hrun
  · simp only [hgrow] at hrun
    cases hrun

theorem atomic_tryReallocate (addr request : Nat) :
    Atomic (tryReallocate addr request : HeapM A (Option Nat)) := by
  have hlast : ∀ new, Unrefusing (do
      log (.reallocated addr new request (new == addr))
      checkAfter .reallocate
      return some new : HeapM A (Option Nat)) := fun new => .bind (.log _) fun _ =>
        .bind (.checkAfter _) fun _ => .pure _
  have hsized : ∀ size, Atomic (do
      let r ← region
      let oldSize ← r.size addr
      let new ← if size ≤ oldSize then do
          Store.split r addr size
          pure addr
        else do
          let grown ← Store.growInPlace r addr size
          if grown then pure addr else move addr oldSize request
      log (.reallocated addr new request (new == addr))
      checkAfter .reallocate
      return some new : HeapM A (Option Nat)) := by
    intro size
    refine .look .region fun r => .look (.reading _) fun oldSize => .ite ?_ ?_
    · exact .of_unrefusing (.bind (.store _) fun _ => .bind (.pure _) hlast)
    · exact atomic_growOrMove hlast
  unfold tryReallocate
  refine .ite (.bind (atomic_tryRelease addr) fun _ => .pure _)
    (.ite ?_ (.look (looks_checkAddress addr) fun _ => ?_))
  · exact .bind (atomic_allocateBlock request) fun bp => .bind (.checkAfter _) fun _ => .pure _
  cases blockSize request with
  | ok size => exact .look (.pure size) hsized
  | error e => exact .look (.refuse e) hsized

theorem atomic_tryZeroAllocate (count elemSize : Nat) :
    Atomic (tryZeroAllocate count elemSize : HeapM A (Option Nat)) := by
  have hroom : Atomic (if count * elemSize = 0 then pure none else do
      let bp ← allocateBlock (count * elemSize)
      modifyMemory fun m => m.fill bp 0 (count * elemSize)
      checkAfter .zeroAllocate
      return some bp : HeapM A (Option Nat)) := by
    refine .ite (.of_looks (.pure _)) (.bind (atomic_allocateBlock _) fun bp => ?_)
    exact .bind (.modify _) fun _ => .bind (.checkAfter _) fun _ => .pure _
  unfold tryZeroAllocate
  exact .ite (.tell _ (.look (.refuse _) fun _ => hroom)) hroom

theorem yielding_tryReallocate {addr request : Nat} (hn : request ≠ 0) :
    Yielding (tryReallocate addr request : HeapM A (Option Nat)) := by
  have hlast : ∀ new, Yielding (do
      log (.reallocated addr new request (new == addr))
      checkAfter .reallocate
      return some new : HeapM A (Option Nat)) := fun new => .bind fun _ => .bind fun _ => .some new
  unfold tryReallocate
  rw [if_neg hn]
  refine .ite (.bind fun bp => .bind fun _ => .some bp) (.bind fun _ => ?_)
  cases blockSize request with
  | ok size | error e =>
    refine .bind fun size => .bind fun r => .bind fun oldSize =>
      .ite (.bind fun _ => .bind hlast) (.bind fun grown => ?_)
    exact .ite (.bind hlast) (.bind hlast)

end Heap

/-! ## Calls -/

/-- The call came to nothing: it ended in an error, or it answered as an operation does that was
    refused or had nothing to do. -/
def Call.Failed [Arena A] (h : Heap A) : Call → Answer → Prop
  | _, .error _ => True
  | .allocate _, .ok answer | .zeroAllocate .., .ok answer | .tryZeroAllocate .., .ok answer =>
    answer = none
  | .reallocate addr size, .ok answer | .tryReallocate addr size, .ok answer =>
    answer = none ∧ (size = 0 → addr = 0 ∨ h.Rejects addr)
  | .release addr, .ok _ | .tryRelease addr, .ok _ => addr = 0 ∨ h.Rejects addr
  | .store .., .ok _ => False

namespace Heap

variable {α : Type} [Arena A] {h h' : Heap A} {addr size : Nat}

/-- The plain operations turn every refusal into an answer. -/
theorem atomic_perform (call : Call) : Atomic (call.perform : HeapM A (Option Nat)) := by
  cases call with
  | allocate size =>
    refine .ite (.of_looks (.pure _)) (.of_unrefusing (.bind (.attempt _) fun answer => ?_))
    cases answer with
    | error e => exact .pure _
    | ok bp => exact .bind (.checkAfter _) fun _ => .pure _
  | zeroAllocate count elemSize =>
    refine .of_unrefusing (.bind (.attempt _) fun answer => ?_)
    cases answer <;> exact .pure _
  | tryZeroAllocate count elemSize => exact atomic_tryZeroAllocate count elemSize
  | reallocate addr size =>
    refine .of_unrefusing (.bind (.attempt _) fun answer => ?_)
    rcases answer with (e | _ | _ | _) | new
    case error.invalidAddress => exact .bind (.log _) fun _ => .pure _
    all_goals exact .pure _
  | tryReallocate addr size => exact atomic_tryReallocate addr size
  | release addr =>
    refine .of_unrefusing (.bind (.bind (.attempt _) fun answer => ?_) fun _ => .pure _)
    rcases answer with (e | _ | _ | _) | new
    case error.invalidAddress => exact .log _
    all_goals exact .pure _
  | tryRelease addr => exact .bind (atomic_tryRelease addr) fun _ => .pure _
  | store addr bytes => exact .of_unrefusing (.bind (.modify _) fun _ => .pure _)

theorem Unchanged.of_pure {a b : α} (hrun : (pure a : HeapM A α) h = .ok b h') :
    Unchanged h h' := by
  injection hrun with _ hh
  exact hh ▸ Unchanged.refl h

/-- What was attempted was refused, or did nothing. -/
theorem Atomic.attempted {x : HeapM A α} {answer : Except HeapError α} (hx : Atomic x)
    (hs : Arena.Steadfast h.arena) (hrun : attempt x h = .ok answer h')
    (hok : ∀ a, answer = .ok a → x h = .ok a h' → Unchanged h h') : Unchanged h h' := by
  cases answer with
  | error e => exact hx h e h' hs (attempt_error hrun)
  | ok a => exact hok a rfl (attempt_answer hrun)

theorem allocate_nothing (hs : Arena.Steadfast h.arena) (hrun : allocate size h = .ok none h') :
    Unchanged h h' := by
  unfold allocate at hrun
  by_cases h0 : size = 0
  · rw [if_pos h0] at hrun
    exact .of_pure hrun
  rw [if_neg h0] at hrun
  obtain ⟨answer, h₁, hattempt, hrun⟩ := HeapM.bind_ok.mp hrun
  cases answer with
  | error e =>
    exact (atomic_allocateBlock size h e h₁ hs (attempt_error hattempt)).trans (.of_pure hrun)
  | ok bp => exact absurd hrun (Yielding.bind (fun _ => .some bp) h₁ h')

theorem tryZeroAllocate_nothing {count elemSize : Nat}
    (hrun : tryZeroAllocate count elemSize h = .ok none h') : Unchanged h h' := by
  unfold tryZeroAllocate at hrun
  by_cases hbig : wordLimit ≤ count * elemSize
  · simp only [if_pos hbig, HeapM.bind_apply, log_told, refuse_apply] at hrun
    cases hrun
  by_cases h0 : count * elemSize = 0
  · simp only [if_neg hbig, if_pos h0] at hrun
    exact .of_pure hrun
  · simp only [if_neg hbig, if_neg h0] at hrun
    exact absurd hrun (Yielding.bind (fun bp => .bind fun _ => .bind fun _ => .some bp) h h')

theorem zeroAllocate_nothing {count elemSize : Nat} (hs : Arena.Steadfast h.arena)
    (hrun : zeroAllocate count elemSize h = .ok none h') :
    Unchanged h h' := by
  obtain ⟨answer, h₁, hattempt, hrun⟩ := HeapM.bind_ok.mp hrun
  cases answer with
  | error e =>
    exact (atomic_tryZeroAllocate _ _ h e h₁ hs (attempt_error hattempt)).trans (.of_pure hrun)
  | ok new =>
    injection hrun with hnew hh
    subst hnew hh
    exact tryZeroAllocate_nothing (attempt_answer hattempt)

/-- Null and rejected addresses are not released. -/
theorem tryRelease_nothing (hr : addr = 0 ∨ h.Rejects addr) {u : Unit}
    (hrun : tryRelease addr h = .ok u h') : Unchanged h h' := by
  by_cases h0 : addr = 0
  · subst h0
    exact .of_pure hrun
  · obtain ⟨fault, hcheck⟩ := hr.resolve_left h0
    rw [tryRelease_rejected hcheck h0] at hrun
    cases hrun

theorem release_nothing (hs : Arena.Steadfast h.arena) (hr : addr = 0 ∨ h.Rejects addr) {u : Unit}
    (hrun : release addr h = .ok u h') :
    Unchanged h h' := by
  obtain ⟨answer, h₁, hattempt, hrun⟩ := HeapM.bind_ok.mp hrun
  refine .trans ((atomic_tryRelease addr).attempted hs hattempt fun u _ => tryRelease_nothing hr) ?_
  rcases answer with (e | _ | _ | _) | _
  case error.invalidAddress => exact unchanged_log hrun
  all_goals exact .of_pure hrun

theorem tryReallocate_nothing (hr : size = 0 → addr = 0 ∨ h.Rejects addr)
    (hrun : tryReallocate addr size h = .ok none h') : Unchanged h h' := by
  by_cases hn : size = 0
  · subst hn
    rw [tryReallocate_zero] at hrun
    obtain ⟨u, h₁, hrelease, hrun⟩ := HeapM.bind_ok.mp hrun
    exact (tryRelease_nothing (hr rfl) hrelease).trans (.of_pure hrun)
  · exact absurd hrun (yielding_tryReallocate hn h h')

theorem reallocate_nothing (hs : Arena.Steadfast h.arena)
    (hr : size = 0 → addr = 0 ∨ h.Rejects addr) (hrun : reallocate addr size h = .ok none h') :
    Unchanged h h' := by
  obtain ⟨answer, h₁, hattempt, hrun⟩ := HeapM.bind_ok.mp hrun
  cases answer with
  | ok new =>
    injection hrun with hnew hh
    subst hnew hh
    exact tryReallocate_nothing hr (attempt_answer hattempt)
  | error e =>
    refine .trans (atomic_tryReallocate addr size h e h₁ hs (attempt_error hattempt)) ?_
    cases e with
    | invalidAddress =>
      obtain ⟨u, h₂, hlog, hrun⟩ := HeapM.bind_ok.mp hrun
      exact (unchanged_log hlog).trans (.of_pure hrun)
    | _ => exact .of_pure hrun

/-- From whatever heap, a call that fails leaves memory, buckets, bounds and settings as they
    were. Each block that the heap knows is known as before, with the same bytes. -/
theorem failed_unchanged {call : Call} {answer : Answer} (hs : Arena.Steadfast h.arena)
    (hrun : attempt call.perform h = .ok answer h') (hf : call.Failed h answer) :
    h'.store = h.store ∧ h'.bounds = h.bounds ∧ h'.prologue = h.prologue ∧ h'.config = h.config ∧
      ∀ p n, usableSize p h = .ok (some n) h →
        usableSize p h' = .ok (some n) h' ∧ h'.store.memory.read p n = h.store.memory.read p n := by
  have hu : Unchanged h h' := by
    cases answer with
    | error e => exact atomic_perform call h e h' hs (attempt_error hrun)
    | ok a =>
      have hrun := attempt_answer hrun
      cases call with
      | allocate => exact allocate_nothing hs (hf ▸ hrun)
      | zeroAllocate => exact zeroAllocate_nothing hs (hf ▸ hrun)
      | tryZeroAllocate => exact tryZeroAllocate_nothing (hf ▸ hrun)
      | reallocate => exact reallocate_nothing hs hf.2 (hf.1 ▸ hrun)
      | tryReallocate => exact tryReallocate_nothing hf.2 (hf.1 ▸ hrun)
      | release =>
        obtain ⟨u, h₁, hrelease, hrun⟩ := HeapM.bind_ok.mp hrun
        exact (release_nothing hs hf hrelease).trans (.of_pure hrun)
      | tryRelease =>
        obtain ⟨u, h₁, hrelease, hrun⟩ := HeapM.bind_ok.mp hrun
        exact (tryRelease_nothing hf hrelease).trans (.of_pure hrun)
      | store => exact hf.elim
  refine ⟨hu.store, hu.bounds, hu.prologue, hu.config,
    fun p n husable => ⟨(looks_usableSize p).again husable hu, ?_⟩⟩
  rw [hu.store]

/-- The block at 4128 can neither grow where it is, before another block, nor move, as
    the page is too small. -/
theorem failed_unchanged_page : ∃ w h', Run page .blank {}
      [(.allocate 56, .ok (some 4128)), (.allocate 56, .ok (some 4192))] w ∧
    attempt (Call.tryReallocate 4128 4000).perform w.heap =
      .ok (.error (.arena (.exhausted 4016 3808))) h' ∧
      h'.store = w.heap.store ∧ h'.bounds = w.heap.bounds ∧ usableSize 4128 h' = .ok (some 56) h' ∧
      h'.store.memory.read 4128 56 = w.heap.store.memory.read 4128 56 := by
  obtain ⟨w, hr, -, hlook⟩ :=
    Run.of_trial page .blank {} [.allocate 56, .allocate 56] [.ok (some 4128), .ok (some 4192)]
    (fun h => (answer? (attempt (Call.tryReallocate 4128 4000).perform) h,
      answer? (usableSize 4128) h))
    (some (.error (.arena (.exhausted 4016 3808))),
      some (some 56)) (by decide +kernel) (by decide +kernel)
  obtain ⟨hanswer, husable⟩ := Prod.mk.inj hlook
  obtain ⟨h', hrun⟩ := answer_some hanswer
  obtain ⟨h₁, husable⟩ := answer_some husable
  obtain rfl := (looks_usableSize 4128).ok husable
  obtain ⟨hstore, hbounds, -, -, hblocks⟩ :=
    failed_unchanged (LawfulArena.steadfast trivial) hrun trivial
  obtain ⟨husable', hbytes⟩ := hblocks 4128 56 husable
  exact ⟨w, h', hr, hrun, hstore, hbounds, husable', hbytes⟩

end Heap

end BoundaryTag
