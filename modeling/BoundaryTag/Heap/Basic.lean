/-
  BoundaryTag.Heap.Basic — the heap: blocks between a prologue and an epilogue, in one arena.

  From `start` on, where the arena's high end was, a heap has a padding word, the prologue (an
  allocated block that is never released), its blocks back to back, and the epilogue, a header of
  size zero in the arena's last word. When the arena grows, the epilogue's word becomes the header
  of the new block and the new last word becomes the epilogue.

  A heap operation ends with an answer, or stops: it was refused, it ran into a fault, or a check
  found the heap corrupted. Whatever was done before it stopped stays done.
-/

import BoundaryTag.Arena
import BoundaryTag.Audit
import BoundaryTag.Config
import BoundaryTag.Event
import BoundaryTag.Request
import BoundaryTag.Store

namespace BoundaryTag

/-- Bytes that never belong to a block: padding, the two words of the prologue, the epilogue. -/
@[simp] abbrev metadataOverhead : Nat := 32

structure Heap (A : Type) where
  arena : A
  store : Store
  /-- The payload address of the prologue, which is that of its footer. -/
  prologue : Nat
  config : Config
  /-- The events emitted so far. -/
  trace : Array Event

/-- Why an operation has no answer. -/
inductive Stop where
  | refused (e : HeapError)
  | fault (f : Fault)
  | corrupted (after : Operation) (corruption : Corruption)
  deriving DecidableEq, Repr

/-- The last words of a heap that found itself corrupted. -/
def corruptionReport (text : AddressText) (after : Operation) (corruption : Corruption) : String :=
  s!"segfit: heap corrupted after {after.name}: {corruption.message text}"

abbrev HeapM (A : Type) := EStateM Stop (Heap A)

instance {A : Type} : MonadLift StoreM (HeapM A) where
  monadLift x := fun h => match x h.store with
    | .ok a store => .ok a { h with store }
    | .error f store => .error (.fault f) { h with store }

namespace Heap

variable {A : Type}

/-! ## Telling and refusing -/

def emit (e : Event) : HeapM A Unit := modify fun h => { h with trace := h.trace.push e }

/-- Emits an event if the heap's settings ask for events. -/
def log (e : Event) : HeapM A Unit := do
  if (← get).config.logEvents then
    emit e

def refuse {α : Type} (e : HeapError) : HeapM A α := throw (.refused e)

/-- Turns a refusal into an answer. Faults and corruption still stop the operation. -/
def attempt {α : Type} (x : HeapM A α) : HeapM A (Except HeapError α) := fun h =>
  match x h with
  | .ok a h => .ok (.ok a) h
  | .error (.refused e) h => .ok (.error e) h
  | .error stop h => .error stop h

/-! ## The region -/

variable [Arena A]

/-- The arena's bytes, as a region. -/
def region : HeapM A Region := do
  let arena := (← get).arena
  Region.between (Arena.low arena) (Arena.high arena)

def firstBlock (h : Heap A) : Nat := h.prologue + doubleWord

/-- Asks the arena for more bytes and answers where they start. -/
def claim (bytes : Nat) : HeapM A Nat := fun h =>
  match Arena.extend bytes h.arena with
  | .ok start arena => .ok start { h with arena }
  | .error e arena => .error (.refused (.arena e)) { h with arena }

/-- Asks the arena for more bytes, and tells when it cannot grow. -/
def claimOrTell (bytes : Nat) : HeapM A Nat :=
  tryCatch (claim bytes) fun stop => do
    log (.cannotGrow bytes)
    throw stop

/-! ## Checking -/

/-- Checks every invariant of the heap's structure and answers with the tally. -/
def validate : HeapM A (Except Corruption Stats) := do
  let h ← get
  let r ← region
  (Audit.validate r h.store.buckets h.prologue).run

def checkAfter (op : Operation) : HeapM A Unit := do
  if (← get).config.checkEachOp then
    if let .error corruption ← validate then
      emit (.corrupted op corruption)
      throw (.corrupted op corruption)

/-! ## Growing and allocating -/

/-- Extends the arena by a number of words, made even, and answers with the free block that this
    gives, merged with a free block below it and filed. -/
def grow (words : Nat) : HeapM A Nat := do
  let words ← checkedAdd words (words % 2)
  if wordLimit ≤ words * wordSize then
    refuse (.requestTooLarge words)
  let size := words * wordSize
  let bp ← claimOrTell size
  let r ← region
  r.writeFree bp size (← r.tag bp).prevAlloc
  r.writeAllocated (← r.above bp) 0 false
  log (.extended size r.high)
  Store.coalesce r bp

/-- Allocates a block for a request, from a free block if one fits, else from a grown arena. -/
def allocateBlock (request : Nat) : HeapM A Nat := do
  let size ← match blockSize request with
    | .ok size => pure size
    | .error e => refuse e
  let r ← region
  let h ← get
  let bp ← match ← h.store.buckets.findFit r size with
    | some bp => pure bp
    | none => grow (max size (h.config.chunkWords * wordSize) / wordSize)
  let r ← region
  Store.place r bp size
  if h.config.logEvents then
    emit (.allocated request (← r.size bp) bp)
  return bp

/-- Accepts only the address of an allocated block within the heap. -/
def checkAddress (addr : Nat) : HeapM A Unit := do
  let r ← region
  if addr < (← get).firstBlock || r.high ≤ addr then
    refuse (.invalidAddress addr .outOfBounds)
  if !(← isAligned addr) then
    refuse (.invalidAddress addr .misaligned)
  let tag ← r.tag addr
  if !tag.alloc || tag.size < minBlock || r.high < addr + (tag.size - wordSize) then
    refuse (.invalidAddress addr .notAllocated)

/-- Lays out prologue and epilogue at the arena's high end and extends it by one chunk. -/
def setUp : HeapM A Unit := do
  let start ← claim metadataOverhead
  if !(← isAligned start) then
    throw (.fault (.unalignedStart start))
  modify fun h => { h with prologue := start + doubleWord }
  let r ← region
  r.write start 0
  r.write (start + wordSize) (Tag.encode ⟨doubleWord, true, true⟩)
  r.write (start + doubleWord) (Tag.encode ⟨doubleWord, true, true⟩)
  r.write (start + 3 * wordSize) (Tag.encode ⟨0, true, true⟩)
  discard <| grow (← get).config.chunkWords
  checkAfter .init

/-- A new heap over an arena. When it cannot be made, the result still has the events of the
    attempt. -/
def start (arena : A) (memory : Memory) (config : Config) : EStateM.Result Stop (Heap A) Unit :=
  setUp { arena, store := { memory, buckets := .empty }, prologue := 0, config, trace := #[] }

end Heap

end BoundaryTag
