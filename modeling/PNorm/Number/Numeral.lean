import PNorm.Number.Binary

/-!
# Reading numerals

A numeral is an optional sign, then decimal digits with an optional point and an
optional exponent, or a word for infinity or for NaN.  `scanDecimal` measures the
longest unsigned decimal at the front of a text; which words count is for the
caller to say.  A numeral stands for the double that is nearest to its exact
value.
-/

namespace PNorm

-- Powers of natural numbers are those of the core library, whatever else is imported.
attribute [local instance (high)] instPowNat

/-- What a numeral says, before it is rounded. -/
inductive Numeral where
  | nan
  | infinite (negative : Bool)
  | decimal (negative : Bool) (significand : Nat) (exponent : Int)
  deriving DecidableEq, Repr

namespace Numeral

/-- The bits of the double that a numeral stands for. -/
def bits : Numeral → Nat
  | .nan => BinaryFormat.double.infinityBits + 2 ^ (BinaryFormat.double.fractionBits - 1)
  | .infinite negative =>
      (if negative then BinaryFormat.double.signWeight else 0) + BinaryFormat.double.infinityBits
  | .decimal negative significand exponent =>
      (if negative then BinaryFormat.double.signWeight else 0) +
        BinaryFormat.double.nearestDecimal significand exponent

/-- The double that a numeral stands for. -/
def toFloat (n : Numeral) : Float :=
  Float.ofBits (UInt64.ofNat n.bits)

/-! ## The parts of a numeral

Each part is read from the front of a text, and its size is the number of
characters it takes there. -/

/-- Whether the text starts with a minus sign, and the size of its sign. -/
def scanSign : List Char → Bool × Nat
  | '-' :: _ => (true, 1)
  | '+' :: _ => (false, 1)
  | _ => (false, 0)

/-- The digits after a leading point, and the size of the point with them. -/
def scanFraction : List Char → List Char × Nat
  | '.' :: rest =>
      let digits := rest.takeWhile Char.isDigit
      (digits, 1 + digits.length)
  | _ => ([], 0)

/-- The power of ten of a leading exponent part, and the size of that part.  A letter without digits
after it is no exponent part. -/
def scanExponent : List Char → Int × Nat
  | [] => (0, 0)
  | c :: rest =>
      if c = 'e' ∨ c = 'E' then
        let (negative, signSize) := scanSign rest
        let digits := (rest.drop signSize).takeWhile Char.isDigit
        let size := Nat.ofDigitChars 10 digits 0
        if digits = [] then (0, 0)
        else (if negative then -size else size, 1 + signSize + digits.length)
      else (0, 0)

/-- The longest unsigned decimal at the front of a text. -/
structure ScannedDecimal where
  significand : Nat
  exponent : Int
  size : Nat
  deriving DecidableEq, Repr

/-- The longest unsigned decimal at the front: digits with an optional point and fraction, or a
point and a fraction, and then an optional exponent part. -/
def scanDecimal (cs : List Char) : Option ScannedDecimal :=
  let whole := cs.takeWhile Char.isDigit
  let (fraction, fractionSize) := scanFraction (cs.drop whole.length)
  if whole = [] ∧ fraction = [] then none
  else
    let size := whole.length + fractionSize
    let (power, exponentSize) := scanExponent (cs.drop size)
    some {
      significand := Nat.ofDigitChars 10 (whole ++ fraction) 0
      exponent := power - fraction.length
      size := size + exponentSize }

/-! ## Whole texts -/

/-- The numeral that a whole text spells, with the words `inf`, `infinity` and `nan` in any case. -/
def ofChars? (cs : List Char) : Option Numeral :=
  let (negative, signSize) := scanSign cs
  let unsigned := cs.drop signSize
  let word := String.ofList (unsigned.map Char.toLower)
  if word = "inf" ∨ word = "infinity" then some (.infinite negative)
  else if word = "nan" then some .nan
  else
    match scanDecimal unsigned with
    | some scanned =>
        if scanned.size = unsigned.length then
          some (.decimal negative scanned.significand scanned.exponent)
        else none
    | none => none

end Numeral

end PNorm
