/-
  BoundaryTag.Config — the settings of a heap, and how they are read from an environment.

  A setting that is absent or malformed keeps its default. The chunk size is taken as it is given;
  `chunkWords` is what the heap asks of its arena: at least one block, never more than any arena
  could hand out, in whole words.

  Proved: `chunkBytes_least`, the chunk is the least number of whole words with these bounds.
-/

import BoundaryTag.Text.Blank
import BoundaryTag.Word

namespace BoundaryTag

abbrev defaultChunkSize : Nat := 256

/-- The largest chunk in whole words that a signed word can count. -/
abbrev maxChunkSize : Nat := signedMax / wordSize * wordSize

structure Config where
  /-- Bytes asked of the arena when no free block fits a small request. -/
  chunkSize : Nat := defaultChunkSize
  /-- Check the whole heap after every operation that changed it. -/
  checkEachOp : Bool := false
  /-- Emit an event for what each operation does. -/
  logEvents : Bool := true
  deriving DecidableEq, Repr

namespace Config

/-- Digits only, after at most one plus sign, and no more than a word holds. -/
def parseSize? (text : String) : Option Nat :=
  let digits := match trimBlanks text.toList with
    | '+' :: rest => rest
    | cs => cs
  if digits.isEmpty || !digits.all Char.isDigit then none
  else
    let n := digits.foldl (fun n c => 10 * n + (c.toNat - '0'.toNat)) 0
    if n < wordLimit then some n else none

def parseFlag? (text : String) : Option Bool :=
  let word := String.ofList ((trimBlanks text.toList).map Char.toLower)
  if ["1", "true", "yes", "on"].contains word then some true
  else if ["0", "false", "no", "off"].contains word then some false
  else none

/-- The defaults, overridden by what `lookup` has under the three names. -/
def ofEnvironment (lookup : String → Option String) : Config :=
  let default : Config := {}
  { chunkSize := ((lookup "SEGFIT_CHUNK_SIZE").bind parseSize?).getD default.chunkSize
    checkEachOp := ((lookup "SEGFIT_CHECK_HEAP").bind parseFlag?).getD default.checkEachOp
    logEvents := ((lookup "SEGFIT_LOG_EVENTS").bind parseFlag?).getD default.logEvents }

/-- The least number of bytes by which the heap extends its arena, before rounding to even words. -/
def chunkBytes (c : Config) : Nat := max (roundUp (min c.chunkSize maxChunkSize)) minBlock

def chunkWords (c : Config) : Nat := c.chunkBytes / wordSize

/-! ## The chunk -/

theorem chunkBytes_least (c : Config) :
    c.chunkBytes % 8 = 0 ∧ 32 ≤ c.chunkBytes ∧ min c.chunkSize maxChunkSize ≤ c.chunkBytes ∧
      ∀ n, n % 8 = 0 → 32 ≤ n → min c.chunkSize maxChunkSize ≤ n → c.chunkBytes ≤ n := by
  simp only [chunkBytes, roundUp, minBlock]
  refine ⟨by omega, by omega, by omega, fun n h₁ h₂ h₃ => by omega⟩

theorem chunkWords_mul (c : Config) : c.chunkWords * 8 = c.chunkBytes := by
  have := (chunkBytes_least c).1
  simp only [chunkWords, wordSize]
  omega

theorem chunkBytes_le (c : Config) : c.chunkBytes ≤ maxChunkSize :=
  (chunkBytes_least c).2.2.2 _ (by decide) (by decide) (Nat.min_le_right _ _)

theorem chunkWords_bounds (c : Config) : c.chunkWords + 1 < wordLimit ∧ 4 ≤ c.chunkWords := by
  have hmul := c.chunkWords_mul
  obtain ⟨-, h32, -⟩ := c.chunkBytes_least
  have hle : c.chunkBytes ≤ 9223372036854775800 := c.chunkBytes_le
  simp only [wordLimit]
  omega

end Config

end BoundaryTag
