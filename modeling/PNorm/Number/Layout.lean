import PNorm.Number.Shortest

/-!
# Writing decimals

Where the decimal point, the zeros around the digits and the exponent go.  The
digits themselves are chosen in `PNorm.Number.Shortest`; a `NumberStyle` states
the decisions of one output format.
-/

namespace PNorm

/-- The decisions of an output format that writes shortest decimals. -/
structure NumberStyle where
  /-- Which of two equally near digit strings is taken. -/
  tie : Tie
  /-- The powers of ten of the leading digit for which no exponent is written. -/
  positional : Int → Bool
  /-- Whether a whole number keeps a point and a zero. -/
  keepsPoint : Bool

namespace Decimal

/-- Zeros, digits and point, with no exponent: `whole` digits stand before the point. -/
def writePositional (keepsPoint : Bool) (digits : List Char) (whole : Int) : List Char :=
  if whole ≤ 0 then
    '0' :: '.' :: (List.replicate (-whole).toNat '0' ++ digits)
  else if digits.length ≤ whole.toNat then
    digits ++ List.replicate (whole.toNat - digits.length) '0' ++
      (if keepsPoint then ['.', '0'] else [])
  else
    digits.take whole.toNat ++ '.' :: digits.drop whole.toNat

/-- One digit before the point, and an exponent that always shows its sign. -/
def writeScientific (digits : List Char) (power : Int) : List Char :=
  let fraction := match digits.drop 1 with
    | [] => []
    | more => '.' :: more
  digits.take 1 ++ fraction ++ 'e' :: (if power < 0 then '-' else '+') ::
    Nat.toDigits 10 power.natAbs

/-- The text of a decimal in a style. -/
def write (style : NumberStyle) (d : Decimal) : List Char :=
  let power := d.exponent + d.digits.length - 1
  if style.positional power then
    writePositional style.keepsPoint d.digits (power + 1)
  else
    writeScientific d.digits power

/-- The text of a decimal with a fixed number of places: at least one digit before the point, and
no point if there are no places. -/
def writeFixed (places : Nat) (d : Decimal) : List Char :=
  let padded := List.replicate (places + 1 - d.digits.length) '0' ++ d.digits
  let whole := padded.length - places
  padded.take whole ++ (if places = 0 then [] else '.' :: padded.drop whole)

end Decimal

/-- A minus sign in front of the text of a negative number. -/
def writeSign (negative : Bool) (digits : List Char) : List Char :=
  if negative then '-' :: digits else digits

/-- The shortest text of a finite value in a style. -/
def writeShortest (f : BinaryFormat) (style : NumberStyle) (negative : Bool) (steps depth : Nat) :
    List Char :=
  writeSign negative ((Decimal.shortest f style.tie steps depth).write style)

/-- The text of a finite value with a fixed number of places. -/
def writePlaces (places : Nat) (negative : Bool) (steps depth : Nat) : List Char :=
  writeSign negative ((Decimal.fixedPlaces places steps depth).writeFixed places)

end PNorm
