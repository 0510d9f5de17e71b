/-!
# Binary floating-point numbers as exact values

A floating-point format is a finite grid of binary fractions.  This file reads a
bit pattern of such a format as the exact value it stands for, and rounds an
exact fraction to the nearest point of the grid.  Both work in natural numbers
alone: every finite value of a format is a whole number of `steps`, where one
step is the smallest positive value `2 ^ (-depth)`.

Bit patterns of the same sign are ordered like the values they stand for, so
rounding needs no unpacking of exponent and fraction: it counts the grid points
below.
-/

namespace PNorm

-- Powers of natural numbers are those of the core library, whatever else is imported.
attribute [local instance (high)] instPowNat

/-! ## Rounding a quotient -/

/-- Which neighbour a value takes that lies exactly between two. -/
inductive Tie where
  | toEven
  | up
  deriving DecidableEq, Repr

/-- The integer nearest to `num / den`. -/
def roundDiv (tie : Tie) (num den : Nat) : Nat :=
  let floor := num / den
  match compare (2 * (num % den)) den with
  | .lt => floor
  | .gt => floor + 1
  | .eq =>
      match tie with
      | .toEven => floor + floor % 2
      | .up => floor + 1

/-! ## Exact values -/

/-- What a floating-point number stands for.  A finite value is
`steps / 2 ^ depth`; its sign is kept apart, so that both zeros are told
apart. -/
inductive ExactValue where
  | nan
  | infinite (negative : Bool)
  | finite (negative : Bool) (steps depth : Nat)
  deriving DecidableEq, Repr

namespace ExactValue

/-- Neither an infinity nor a NaN, and not below one. -/
def isAtLeastOne : ExactValue → Bool
  | .finite false steps depth => 2 ^ depth ≤ steps
  | _ => false

/-- The natural number that a value without sign is equal to, if there is one. -/
def natural? : ExactValue → Option Nat
  | .finite false steps depth => if steps % 2 ^ depth = 0 then some (steps / 2 ^ depth) else none
  | _ => none

end ExactValue

/-! ## Formats -/

/-- A binary interchange format, given by the widths of its two fields. -/
structure BinaryFormat where
  fractionBits : Nat
  exponentBits : Nat
  deriving DecidableEq, Repr

namespace BinaryFormat

/-- The format with 64 bits. -/
def double : BinaryFormat := ⟨52, 11⟩

/-- The format with 32 bits. -/
def single : BinaryFormat := ⟨23, 8⟩

variable (f : BinaryFormat)

/-- The smallest positive value is `2 ^ (-depth)`. -/
def depth : Nat := 2 ^ (f.exponentBits - 1) + f.fractionBits - 2

/-- The bits of positive infinity: the exponent field is full and the fraction is zero. -/
def infinityBits : Nat := (2 ^ f.exponentBits - 1) * 2 ^ f.fractionBits

/-- The weight of the sign bit. -/
def signWeight : Nat := 2 ^ (f.exponentBits + f.fractionBits)

/-- The value that a bit pattern stands for.  A zero exponent field has no hidden leading one. -/
def exactValue (bits : Nat) : ExactValue :=
  let fraction := bits % 2 ^ f.fractionBits
  let exponent := bits / 2 ^ f.fractionBits % 2 ^ f.exponentBits
  let negative := bits / f.signWeight % 2 == 1
  if exponent + 1 = 2 ^ f.exponentBits then
    if fraction = 0 then .infinite negative else .nan
  else if exponent = 0 then
    .finite negative fraction f.depth
  else
    .finite negative ((2 ^ f.fractionBits + fraction) * 2 ^ (exponent - 1)) f.depth

/-- The bits of the value nearest to `num / den`, a tie going to the even neighbour.

With `shift` chosen so that `num / den` has no more bits than a significand in
units of `2 ^ shift` steps, the rounded significand and the `shift` full rows of
the grid below it together count the grid points, which is the bit pattern.  A
significand that rounds up to the next power of two carries into the exponent
field by itself, and what is beyond the grid becomes infinity. -/
def nearest (num den : Nat) : Nat :=
  let scaled := num * 2 ^ f.depth
  let shift := (scaled / den).log2 - f.fractionBits
  min (shift * 2 ^ f.fractionBits + roundDiv .toEven scaled (den * 2 ^ shift)) f.infinityBits

/-- The bits of the value nearest to `significand * 10 ^ exponent`.

The first test of each case answers without the power of ten where the value is
certainly beyond the grid (`2 ^ 3 ≤ 10`), so the cost is bounded by the length
of the significand and the range of the format. -/
def nearestDecimal (significand : Nat) : Int → Nat
  | .ofNat k =>
      if significand = 0 then 0
      else if 2 ^ (f.exponentBits - 1) ≤ significand.log2 + 3 * k then f.infinityBits
      else f.nearest (significand * 10 ^ k) 1
  | .negSucc k =>
      if significand.log2 + f.depth + 2 ≤ 3 * (k + 1) then 0
      else f.nearest significand (10 ^ (k + 1))

end BinaryFormat

end PNorm
