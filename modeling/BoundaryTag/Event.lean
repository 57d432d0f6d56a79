/-
  BoundaryTag.Event — what a heap tells about its work.

  An event is emitted when its operation has taken effect. Folding the events of a run gives the
  addresses in use: `allocated` adds one, `released` removes one, `reallocated` removes the old one
  when the block moved. `text` writes an event as one line: level, target, message, fields.
-/

import BoundaryTag.Error

namespace BoundaryTag

/-- The operations after which a heap may be checked, and which a report names. -/
inductive Operation where
  | init
  | allocate
  | release
  | reallocate
  | zeroAllocate
  deriving DecidableEq, Repr

def Operation.name : Operation → String
  | init => "init"
  | allocate => "allocate"
  | release => "release"
  | reallocate => "reallocate"
  | zeroAllocate => "zero_allocate"

inductive Event where
  | allocated (requested blockSize addr : Nat)
  | released (blockSize addr : Nat)
  | reallocated (old new requested : Nat) (inPlace : Bool)
  | extended (bytes high : Nat)
  | ignored (during : Operation) (addr : Nat) (fault : AddressFault)
  | cannotGrow (requested : Nat)
  | sizeOverflow (count elemSize : Nat)
  | corrupted (after : Operation) (corruption : Corruption)
  /-- A check that shows its walk met this allocated block. -/
  | sawAllocated (addr size : Nat) (prevAlloc : Bool)
  /-- A check that shows its walk met this free block. -/
  | sawFree (addr size : Nat) (prevAlloc : Bool) (next prev : Option Nat)
  deriving DecidableEq, Repr

namespace Event

def level : Event → String
  | allocated .. | released .. | reallocated .. | extended .. => "TRACE"
  | ignored .. | sawAllocated .. | sawFree .. => "DEBUG"
  | cannotGrow .. | sizeOverflow .. => "WARN"
  | corrupted .. => "ERROR"

def target : Event → String
  | corrupted .. | sawAllocated .. | sawFree .. => "segfit::check"
  | _ => "segfit::heap"

def message : Event → String
  | allocated .. => "allocated"
  | released .. => "released"
  | reallocated .. => "reallocated"
  | extended .. => "arena extended"
  | ignored .. => "ignored invalid address"
  | cannotGrow .. => "arena cannot grow"
  | sizeOverflow .. => "zero_allocate size overflows"
  | corrupted .. => "heap corrupted"
  | sawAllocated .. => "allocated block"
  | sawFree .. => "free block"

/-- A link as a field's value. -/
def linkText (text : AddressText) : Option Nat → String
  | none => "None"
  | some addr => s!"Some({text.decimal addr})"

def fields (text : AddressText) : Event → List (String × String)
  | allocated requested blockSize addr =>
    [("requested", toString requested), ("block_size", toString blockSize), ("addr", text.hex addr)]
  | released blockSize addr => [("block_size", toString blockSize), ("addr", text.hex addr)]
  | reallocated old new requested inPlace =>
    [("old", text.hex old), ("new", text.hex new), ("requested", toString requested),
      ("in_place", toString inPlace)]
  | extended bytes high => [("bytes", toString bytes), ("high", text.hex high)]
  | ignored during addr fault =>
    [("op", during.name), ("addr", text.hex addr), ("fault", fault.name)]
  | cannotGrow requested => [("requested", toString requested)]
  | sizeOverflow count elemSize => [("count", toString count), ("elem_size", toString elemSize)]
  | corrupted after corruption => [("op", after.name), ("corruption", corruption.message text)]
  | sawAllocated addr size prevAlloc =>
    [("addr", text.hex addr), ("size", toString size), ("prev_alloc", toString prevAlloc)]
  | sawFree addr size prevAlloc next prev =>
    [("addr", text.hex addr), ("size", toString size), ("prev_alloc", toString prevAlloc),
      ("next", linkText text next), ("prev", linkText text prev)]

def text (addresses : AddressText) (e : Event) : String :=
  let fields := (e.fields addresses).map fun (name, value) => s!"{name}={value}"
  " ".intercalate (e.level :: e.target :: e.message :: fields)

end Event

end BoundaryTag
