/-
  BoundaryTag.Proofs.Opened — the steps of a global heap, as steps of the heap that it has.

  A global heap that has a heap, or can make one, does with it what it would do on its own: it
  answers as that does, and keeps what comes of it. All that is added are the events, which it
  moves over. So what is known of a heap's step is known of the global heap's (`Ends`), one rule
  for each way that steps are put together.

  Proved: a step on the heap that a global heap opens (`Ends.withHeap`), and what calls come to
  when there is none to open (`withHeap_shut`).
-/

import BoundaryTag.GlobalHeap.Call
import BoundaryTag.Proofs.Laid

namespace BoundaryTag

variable {A : Type}

theorem GlobalM.bind_apply {α β : Type} (x : GlobalM A α) (f : α → GlobalM A β) (g : GlobalHeap A) :
    (x >>= f) g = match x g with
      | .ok a g => f a g
      | .error stop g => .error stop g := by
  cases hx : x g <;> simp only [bind, EStateM.bind, hx]

theorem GlobalM.bind_ok {α β : Type} {x : GlobalM A α} {f : α → GlobalM A β} {g g' : GlobalHeap A}
    {b : β} (hrun : (x >>= f) g = .ok b g') : ∃ a g₁, x g = .ok a g₁ ∧ f a g₁ = .ok b g' := by
  rw [GlobalM.bind_apply] at hrun
  rcases hx : x g with ⟨a, g₁⟩ | ⟨stop, g₁⟩
  · rw [hx] at hrun
    exact ⟨a, g₁, rfl, hrun⟩
  · rw [hx] at hrun
    cases hrun

/-- The heap with its events moved over. -/
def Heap.muted (h : Heap A) : Heap A := { h with trace := #[] }

variable [Arena A]

namespace Heap

variable {h h' : Heap A}

/-- A later heap that can be checked could be checked before. -/
theorem Later.checkable_before (hl : Later h h') (hc : h'.Checkable) : h.Checkable := by
  intro hcheck
  have hhigh := hc (by rw [hl.config, hcheck])
  have hle := hl.high_le
  omega

theorem same_muted [LawfulArena A] (h : Heap A) : Same h h.muted := ⟨rfl, rfl, rfl, rfl, id⟩

end Heap

namespace GlobalHeap

variable {α β : Type} {g g₁ g₂ : GlobalHeap A} {h h₁ h₂ : Heap A} {x : GlobalM A α} {a : α} {b : β}

omit [Arena A] in
@[simp] theorem tried_heap (g : GlobalHeap A) : g.tried.heap = g.heap := by
  unfold tried
  split <;> rfl

omit [Arena A] in
@[simp] theorem tried_makeArena (g : GlobalHeap A) : g.tried.makeArena = g.makeArena := by
  unfold tried
  split <;> rfl

omit [Arena A] in
@[simp] theorem tried_config (g : GlobalHeap A) : g.tried.config = g.config := by
  unfold tried
  split <;> rfl

/-- The heap that the next call finds, or makes. -/
def Opens (g : GlobalHeap A) (h : Heap A) : Prop :=
  g.heap = some h ∨ g.heap = none ∧
    ∃ arena memory, g.makeArena g.attempts = .ok (.ok (arena, memory)) ∧
    Heap.start arena memory g.config = .ok () h

theorem withHeap_opens (ho : g.Opens h) (x : HeapM A α) :
    withHeap x g = match x h with
      | .ok a h' => .ok (some a) (g.keep h')
      | .error stop h' => .error stop (g.keep h') := by
  unfold withHeap
  rcases ho with hheap | ⟨hheap, arena, memory, hmake, hstart⟩
  · cases hx : x h <;> simp only [hheap, hx]
  · cases hx : x h <;> simp only [hheap, hmake, hstart, hx]

/-- Nothing, where there is something to answer at all. -/
def nothing : EStateM.Result Stop (GlobalHeap A) Unit →
    EStateM.Result Stop (GlobalHeap A) (Option α)
  | .ok _ g => .ok none g
  | .error stop g => .error stop g

/-- The global heap has no heap, but is otherwise what `g` is, apart from events and attempts. -/
structure Still (g g' : GlobalHeap A) : Prop where
  heap : g'.heap = none
  makeArena : g'.makeArena = g.makeArena
  config : g'.config = g.config

/-- Without a heap to open, all calls end the same: they answer that there is none, or they stop. -/
theorem withHeap_shut (hs : ∀ h, ¬ g.Opens h) : g.heap = none ∧
    ∃ r, (∀ g', r = .ok () g' → g.Still g') ∧ ∀ (α : Type) (x : HeapM A α), withHeap x g =
      nothing r := by
  cases hheap : g.heap with
  | some h => exact absurd (.inl hheap) (hs h)
  | none =>
    refine ⟨rfl, ?_⟩
    cases hmake : g.makeArena g.attempts with
    | error fault =>
      refine ⟨.error (.fault fault) g.tried, fun g' hr => (nomatch hr), fun α x => ?_⟩
      simp only [withHeap, hheap, hmake, nothing]
    | ok made =>
      rcases made with e | ⟨arena, memory⟩
      · refine ⟨.ok () g.tried, fun g' hr => ?_, fun α x => ?_⟩
        · obtain ⟨-, rfl⟩ := EStateM.Result.ok.inj hr
          exact ⟨(tried_heap g).trans hheap, tried_makeArena g, tried_config g⟩
        · simp only [withHeap, hheap, hmake, nothing]
      · rcases hstart : Heap.start arena memory g.config with ⟨_, h⟩ | ⟨stop, h⟩
        · exact absurd (.inr ⟨hheap, arena, memory, hmake, hstart⟩) (hs h)
        · cases stop with
          | refused e =>
            refine ⟨.ok () (g.hear h.trace), fun g' hr => ?_, fun α x => ?_⟩
            · obtain ⟨-, rfl⟩ := EStateM.Result.ok.inj hr
              exact ⟨(tried_heap g).trans hheap, tried_makeArena g, tried_config g⟩
            · simp only [withHeap, hheap, hmake, hstart, nothing]
          | fault fault =>
            refine ⟨.error (.fault fault) (g.hear h.trace), fun g' hr => (nomatch hr),
              fun α x => ?_⟩
            simp only [withHeap, hheap, hmake, hstart, nothing]
          | corrupted op corruption =>
            refine ⟨.error (.corrupted op corruption) (g.hear h.trace), fun g' hr => (nomatch hr),
              fun α x => ?_⟩
            simp only [withHeap, hheap, hmake, hstart, nothing]

/-- The global heap `g'` has the heap `h`, and apart from events it is otherwise what `g` is. -/
structure Keeps (g g' : GlobalHeap A) (h : Heap A) : Prop where
  heap : g'.heap = some h
  makeArena : g'.makeArena = g.makeArena
  config : g'.config = g.config

/-- The step comes to the check of a heap that has no room to be checked, and keeps
    that heap as it then is. -/
def Halts (x : GlobalM A α) (g : GlobalHeap A) : Prop :=
  ∃ g' h', x g = .error (.fault .overflow) g' ∧ g'.heap = some h' ∧ ¬ h'.Checkable

/-- The step answers `a` and keeps the heap `h`, unless a check of that, or of the heap that it
    was on the way, runs into the end of the address space. -/
structure Ends (x : GlobalM A α) (g : GlobalHeap A) (a : α) (h : Heap A) : Prop where
  run : h.Checkable → ∃ g', x g = .ok a g' ∧ g.Keeps g' h
  halt : ¬ h.Checkable → Halts x g

namespace Ends

theorem withHeap {x : HeapM A α} (ho : g.Opens h) (hx : Heap.Answers x h a h₁) :
    Ends (withHeap x) g (some a) h₁.muted := by
  refine ⟨fun hc => ⟨g.keep h₁, ?_, rfl, tried_makeArena g, tried_config g⟩,
    fun hc => ⟨g.keep h₁, h₁.muted, ?_, rfl, hc⟩⟩
  · rw [withHeap_opens ho, hx.run hc]
  · rw [withHeap_opens ho, hx.halt hc]

theorem pure (hheap : g.heap = some h) (hc : h.Checkable) (a : α) : Ends (pure a) g a h :=
  ⟨fun _ => ⟨g, rfl, hheap, rfl, rfl⟩, fun hn => absurd hc hn⟩

theorem modifyMemory (hheap : g.heap = some h) (hc : h.Checkable) (f : Memory → Memory) :
    Ends (modifyMemory f) g () (h.withMemory (f h.store.memory)) := by
  refine ⟨fun _ => ⟨_, rfl, ?_, rfl, rfl⟩, fun hn => absurd hc hn⟩
  show g.heap.map (fun h => h.withMemory (f h.store.memory)) = _
  rw [hheap]
  rfl

/-- What comes after a step goes on from the heap that the step has kept. -/
theorem bind {f : α → GlobalM A β} (hx : Ends x g a h₁) (hlater : h₁.Later h₂)
    (hf : ∀ g₁, g.Keeps g₁ h₁ → h₁.Checkable → Ends (f a) g₁ b h₂) : Ends (x >>= f) g b h₂ := by
  refine ⟨fun hc => ?_, fun hc => ?_⟩
  · have hc₁ := hlater.checkable_before hc
    obtain ⟨g₁, hrun, hkeeps⟩ := hx.run hc₁
    obtain ⟨g₂, hrest, hkeeps₂⟩ := (hf g₁ hkeeps hc₁).run hc
    refine ⟨g₂, ?_, hkeeps₂.heap, hkeeps₂.makeArena.trans hkeeps.makeArena,
      hkeeps₂.config.trans hkeeps.config⟩
    rw [GlobalM.bind_apply, hrun]
    exact hrest
  · by_cases hc₁ : h₁.Checkable
    · obtain ⟨g₁, hrun, hkeeps⟩ := hx.run hc₁
      obtain ⟨g₂, h', hrest, hkept⟩ := (hf g₁ hkeeps hc₁).halt hc
      exact ⟨g₂, h', by rw [GlobalM.bind_apply, hrun]; exact hrest, hkept⟩
    · obtain ⟨g₁, h', hrun, hkept⟩ := hx.halt hc₁
      exact ⟨g₁, h', by rw [GlobalM.bind_apply, hrun], hkept⟩

/-- What comes after the step only looks at its answer. -/
theorem bind_pure (hx : Ends x g a h) (f : α → β) :
    Ends (x >>= fun a => Pure.pure (f a)) g (f a) h :=
  hx.bind (Heap.Later.refl h) fun _ hkeeps hc => .pure hkeeps.heap hc _

/-- What comes after a step that answers with nothing is nothing. -/
theorem bind_none {x : GlobalM A (Option α)} {f : Option α → GlobalM A (Option β)}
    (hx : Ends x g none h) (hf : f none = Pure.pure none) :
    Ends (x >>= f) g none h := by
  refine hx.bind (Heap.Later.refl h) fun g₁ hkeeps hc => ?_
  rw [hf]
  exact .pure hkeeps.heap hc none

/-- What comes after the step writes into the memory and answers. -/
theorem bind_write {f : α → GlobalM A β} (F : Memory → Memory) (hx : Ends x g a h)
    (hf : f a = GlobalHeap.modifyMemory F >>= fun _ => Pure.pure b) :
    Ends (x >>= f) g b (h.withMemory (F h.store.memory)) := by
  refine hx.bind ⟨rfl, rfl, rfl, Nat.le_refl _⟩ fun g₁ hkeeps hc => ?_
  rw [hf]
  exact (modifyMemory hkeeps.heap hc F).bind_pure fun _ => b

theorem inv {g' : GlobalHeap A} {a' : α} (hx : Ends x g a h) (hrun : x g = .ok a' g') :
    a' = a ∧ g.Keeps g' h ∧ h.Checkable := by
  by_cases hc : h.Checkable
  · obtain ⟨g₁, hrun₁, hkeeps⟩ := hx.run hc
    rw [hrun] at hrun₁
    obtain ⟨rfl, rfl⟩ := EStateM.Result.ok.inj hrun₁
    exact ⟨rfl, hkeeps, hc⟩
  · obtain ⟨g₁, h', hrun₁, -⟩ := hx.halt hc
    rw [hrun] at hrun₁
    cases hrun₁

theorem allocateBytes {size : Nat} {p : Option Nat} (ho : g.Opens h)
    (hx : Heap.Answers (Heap.allocate (max size 1)) h p h₁) :
    Ends (allocateBytes size) g p h₁.muted := (withHeap ho hx).bind_pure Option.join

theorem releaseBlock {addr : Nat} (ho : g.Opens h) (hx : Heap.Answers (Heap.release addr) h () h₁) :
    Ends (releaseBlock addr) g () h₁.muted := (withHeap ho hx).bind_pure fun _ => ()

end Ends

end GlobalHeap

end BoundaryTag
