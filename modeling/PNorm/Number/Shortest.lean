import PNorm.Number.Binary

/-!
# Decimals for a binary value

Two ways to choose the decimal digits of a finite value `steps / 2 ^ depth`:

* `shortest`: as few digits as read back to the same bits;
* `fixedPlaces`: a given number of places, rounded from the exact value.

Every finite binary value has a finite decimal expansion, because
`steps / 2 ^ depth = steps * 5 ^ depth / 10 ^ depth`.  The search for the
shortest decimal cuts that expansion after one, two, three digits and so on, and
tries the two neighbours of the value on each grid.  The last grid holds the
value itself, so the search cannot fail.
-/

namespace PNorm

-- Powers of natural numbers are those of the core library, whatever else is imported.
attribute [local instance (high)] instPowNat

/-- The number `significand * 10 ^ exponent`. -/
structure Decimal where
  significand : Nat
  exponent : Int
  deriving DecidableEq, Repr

namespace Decimal

/-- The decimal digits of the significand. -/
def digits (d : Decimal) : List Char :=
  Nat.toDigits 10 d.significand

/-- The same number without trailing zeros in the significand; zero has the exponent zero. -/
def normalize (d : Decimal) : Decimal :=
  if hzero : d.significand = 0 then
    ⟨0, 0⟩
  else if d.significand % 10 = 0 then
    normalize ⟨d.significand / 10, d.exponent + 1⟩
  else
    d
termination_by d.significand
decreasing_by exact Nat.div_lt_self (Nat.pos_of_ne_zero hzero) (by decide)

/-- The exact decimal expansion of `steps / 2 ^ depth`. -/
def ofSteps (steps depth : Nat) : Decimal :=
  ⟨steps * 5 ^ depth, -depth⟩

/-- The bits that the decimal reads back to. -/
def bits (f : BinaryFormat) (d : Decimal) : Nat :=
  f.nearestDecimal d.significand d.exponent

/-- Of the two neighbours of `d` on the grid of its first digits, with `dropped` digits left off,
the one that reads back to `target`.  If both do it is the nearer one, and on a tie the one that
`tie` says. -/
def neighbour? (f : BinaryFormat) (tie : Tie) (target : Nat) (d : Decimal) (dropped : Nat) :
    Option Decimal :=
  let unit := 10 ^ dropped
  let lower : Decimal := ⟨d.significand / unit, d.exponent + dropped⟩
  let upper : Decimal := ⟨d.significand / unit + 1, d.exponent + dropped⟩
  let nearer : Decimal := ⟨roundDiv tie d.significand unit, d.exponent + dropped⟩
  match decide (lower.bits f = target), decide (upper.bits f = target) with
  | true, true => some nearer
  | true, false => some lower
  | false, true => some upper
  | false, false => none

/-- The decimal with the fewest digits that reads back to the bits of `steps / 2 ^ depth`. -/
def shortest (f : BinaryFormat) (tie : Tie) (steps depth : Nat) : Decimal :=
  let exact := ofSteps steps depth
  let target := f.nearest steps (2 ^ depth)
  let length := exact.digits.length
  -- The grid of the first digit, of the first two, and so on up to the exact value.
  let found := (List.range length).findSome? fun kept =>
    neighbour? f tie target exact (length - (kept + 1))
  (found.getD exact).normalize

/-- The decimal with `places` places that is nearest to `steps / 2 ^ depth`, a tie going to the even
neighbour. -/
def fixedPlaces (places steps depth : Nat) : Decimal :=
  ⟨roundDiv .toEven (steps * 10 ^ places) (2 ^ depth), -places⟩

end Decimal

end PNorm
