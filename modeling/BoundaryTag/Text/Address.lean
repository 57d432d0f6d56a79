/-
  BoundaryTag.Text.Address — how addresses are written in messages and events.

  Texts name addresses in hexadecimal or, inside an optional value, in decimal. They are written as
  they are (`absolute`), or as the distance from a base (`relativeTo`), which makes the texts of two
  heaps at different places comparable. An address too far from the base stays as it is.
-/

namespace BoundaryTag

def hex (n : Nat) : String := "0x" ++ String.ofList (Nat.toDigits 16 n)

/-- The farthest that an address may be from the base it is written against, two to the power of
    40. -/
abbrev farthest : Nat := 1099511627776

/-- The distance from `base` to `addr`, when that is not too far. -/
def distance? (base addr : Nat) : Option Int :=
  let d : Int := (addr : Int) - (base : Int)
  if d.natAbs ≤ farthest then some d else none

structure AddressText where
  hex : Nat → String
  decimal : Nat → String

namespace AddressText

def absolute : AddressText where
  hex := BoundaryTag.hex
  decimal := toString

def relativeTo (base : Nat) : AddressText where
  hex addr := match distance? base addr with
    | some d => (if d < 0 then "-" else "") ++ BoundaryTag.hex d.natAbs
    | none => BoundaryTag.hex addr
  decimal addr := match distance? base addr with
    | some d => toString d
    | none => toString addr

end AddressText

end BoundaryTag
