/-
  BoundaryTag.GlobalHeap — one heap for a whole program, made on first use.

  Requests come with a layout: a size and an alignment, a power of two. A heap's blocks are aligned
  to a word; for a larger alignment the request is padded, the address handed out is rounded up
  within the block, and the word right below it holds the block's own address, by which it is found
  again. While the heap cannot be made, every call tries again and answers null.

  Attempts to make an arena need not end alike. Each has an outcome of its own, and a heap made over
  the arena that it gave finds what the memory holds by then.
-/

import BoundaryTag.Heap.Operations

namespace BoundaryTag

structure Layout where
  size : Nat
  align : Nat
  deriving DecidableEq, Repr

/-- Whether the size, rounded up to the alignment, is a signed word. -/
def Layout.isValid (l : Layout) : Bool := l.size + (l.align - 1) ≤ signedMax

structure GlobalHeap (A : Type) where
  heap : Option (Heap A)
  /-- The outcome of each attempt to make an arena, the first one at zero, with the memory that a
      heap over it starts from. -/
  makeArena : Nat → Except Fault (Except ArenaError (A × Memory))
  /-- The attempts so far. -/
  attempts : Nat
  config : Config
  /-- The events of all calls so far, failed attempts to make the heap included. -/
  trace : Array Event

abbrev GlobalM (A : Type) := EStateM Stop (GlobalHeap A)

namespace GlobalHeap

variable {A : Type}

/-- A global heap before the first attempt. -/
def untried (makeArena : Nat → Except Fault (Except ArenaError (A × Memory))) (config : Config) :
    GlobalHeap A :=
  { heap := none, makeArena, attempts := 0, config, trace := #[] }

/-- All attempts end alike, and over blank memory. -/
def withConfig (makeArena : Except Fault (Except ArenaError A)) (config : Config) : GlobalHeap A :=
  untried (fun _ => makeArena.map (Except.map fun arena => (arena, .blank))) config

/-- A global heap that emits no events. -/
def new (makeArena : Except Fault (Except ArenaError A)) : GlobalHeap A :=
  withConfig makeArena { logEvents := false }

/-- Counts the attempt to make a heap that comes before a step, if there is none. -/
def tried (g : GlobalHeap A) : GlobalHeap A :=
  if g.heap.isSome then g else { g with attempts := g.attempts + 1 }

/-- Keeps a heap after a step, and moves its events over. -/
def keep (g : GlobalHeap A) (h : Heap A) : GlobalHeap A :=
  { g.tried with heap := some { h with trace := #[] }, trace := g.trace ++ h.trace }

/-- Keeps the events of an attempt that made no heap. -/
def hear (g : GlobalHeap A) (events : Array Event) : GlobalHeap A :=
  { g.tried with trace := g.trace ++ events }

variable [Arena A]

/-- Runs `f` on the heap, which is made first if there is none. None when it cannot be made. -/
def withHeap {α : Type} (f : HeapM A α) : GlobalM A (Option α) := fun g =>
  let use (h : Heap A) : EStateM.Result Stop (GlobalHeap A) (Option α) :=
    match f h with
    | .ok a h => .ok (some a) (g.keep h)
    | .error stop h => .error stop (g.keep h)
  match g.heap, g.makeArena g.attempts with
  | some h, _ => use h
  | none, .error fault => .error (.fault fault) g.tried
  | none, .ok (.error _) => .ok none g.tried
  | none, .ok (.ok (arena, memory)) =>
    match Heap.start arena memory g.config with
    | .ok () h => use h
    | .error (.refused _) h => .ok none (g.hear h.trace)
    | .error stop h => .error stop (g.hear h.trace)

def checkHeap (verbose : Bool) : GlobalM A (Except Corruption Unit) := do
  return (← withHeap (Heap.checkHeap verbose)).getD (.ok ())

/-! ## Addresses below the layouts -/

def allocateBytes (size : Nat) : GlobalM A (Option Nat) := do
  return (← withHeap (Heap.allocate (max size 1))).join

def releaseBlock (addr : Nat) : GlobalM A Unit := do
  discard <| withHeap (Heap.release addr)

/-- Memory as the program sees it. Without a heap nothing has been stored. -/
def memory (g : GlobalHeap A) : Memory := (g.heap.map fun h => h.store.memory).getD .blank

def modifyMemory (f : Memory → Memory) : GlobalM A Unit := modify fun g =>
  { g with
    heap := g.heap.map fun h => { h with store := { h.store with memory := f h.store.memory } } }

/-- Allocates for an alignment of more than a word. -/
def allocateAligned (layout : Layout) : GlobalM A (Option Nat) := do
  let padded := layout.size + layout.align
  if wordLimit ≤ padded then return none
  let some block ← allocateBytes padded | return none
  let arith : Except Fault (Nat × Nat) := do
    let aligned ← alignTo (← checkedAdd block wordSize) layout.align
    return (aligned, ← checkedSub aligned wordSize)
  match arith with
  | .error fault => throw (.fault fault)
  | .ok (aligned, stash) =>
    modifyMemory fun m => m.setWord stash block
    return some aligned

/-- The block that an address handed out for a layout lies in. -/
def blockOf (addr : Nat) (layout : Layout) : GlobalM A Nat := do
  if layout.align ≤ wordSize then return addr
  match checkedSub addr wordSize with
  | .error fault => throw (.fault fault)
  | .ok stash => return (← get).memory.word stash

/-! ## By layout -/

def allocate (layout : Layout) : GlobalM A (Option Nat) :=
  if layout.align ≤ wordSize then allocateBytes layout.size else allocateAligned layout

def deallocate (addr : Nat) (layout : Layout) : GlobalM A Unit := do
  releaseBlock (← blockOf addr layout)

def zeroAllocate (layout : Layout) : GlobalM A (Option Nat) := do
  if layout.align ≤ wordSize then
    return (← withHeap (Heap.zeroAllocate 1 (max layout.size 1))).join
  let some addr ← allocateAligned layout | return none
  modifyMemory fun m => m.fill addr 0 layout.size
  return some addr

def reallocate (addr : Nat) (layout : Layout) (newSize : Nat) : GlobalM A (Option Nat) := do
  if layout.align ≤ wordSize then
    return (← withHeap (Heap.reallocate addr (max newSize 1))).join
  let newLayout : Layout := { layout with size := newSize }
  if !newLayout.isValid then return none
  let some new ← allocateAligned newLayout | return none
  modifyMemory fun m => m.copy addr new (min layout.size newSize)
  deallocate addr layout
  return some new

end GlobalHeap

end BoundaryTag
