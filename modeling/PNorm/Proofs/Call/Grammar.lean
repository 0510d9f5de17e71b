import PNorm.Call.Basic
import PNorm.Call.Token
import PNorm.Number.Arith
import PNorm.Proofs.Number.Rounding

/-!
# The grammar of calls

What a call looks like, said without a reader: relations between texts and what
they stand for, one constructor for each way of writing something.

```text
call     = identifier "(" argument ("," argument)* ")"
argument = "[" (number ("," number)*)? "]" | number | identifier
```

Between the parts of a call, and at its two ends, any spaces may stand; inside a
number or a word there are none.  A number is read as the double nearest to what
it says (`Numeral.Rounds`), so a text fixes every value of its call.

Nothing here says which alternative is tried first or how far a repetition goes:
a word is read as an identifier if it is not a keyword, and that is all that
keeps the alternatives apart.  Nor is there a condition on what follows a keyword
or a number, since only a space, a comma or a bracket can.
-/

namespace PNorm

/-! ## The value of a number -/

namespace Numeral

/-- The double with a sign and the bits of its magnitude. -/
def signed (negative : Bool) (bits : Nat) : Float :=
  Float.ofBits (UInt64.ofNat ((if negative then BinaryFormat.double.signWeight else 0) + bits))

/-- `x` is the double that a numeral stands for: a decimal stands for the one that is nearest to its
exact value. -/
inductive Rounds : Numeral → Float → Prop
  | nan : Rounds .nan FloatArith.nan
  | infinite (negative : Bool) :
      Rounds (.infinite negative) (signed negative BinaryFormat.double.infinityBits)
  | decimal (negative : Bool) (significand : Nat) (exponent : ℤ) {bits : Nat}
      (hbits : BinaryFormat.double.IsNearest (significand * 10 ^ exponent) bits) :
      Rounds (.decimal negative significand exponent) (signed negative bits)

theorem rounds_iff {n : Numeral} {x : Float} : n.Rounds x ↔ x = n.toFloat := by
  constructor
  · intro h
    cases h with
    | nan => rfl
    | infinite negative => rfl
    | decimal negative significand exponent hbits =>
        have hnearest := BinaryFormat.isNearest_nearestDecimal (f := .double) (by decide)
          (by decide) significand exponent
        rw [hbits.unique hnearest]
        rfl
  · rintro rfl
    cases n with
    | nan => exact .nan
    | infinite negative => exact .infinite negative
    | decimal negative significand exponent =>
        exact .decimal negative significand exponent
          (BinaryFormat.isNearest_nearestDecimal (by decide) (by decide) significand exponent)

end Numeral

namespace Grammar

/-! ## Spaces and words -/

/-- Any spaces, or none. -/
def Spaces (text : List Char) : Prop :=
  ∀ c ∈ text, Text.isSpace c

theorem spaces_nil : Spaces [] := by simp [Spaces]

theorem Spaces.append {spaces spaces' : List Char} (hspaces : Spaces spaces)
    (hspaces' : Spaces spaces') : Spaces (spaces ++ spaces') := by
  intro c hc
  rcases List.mem_append.mp hc with h | h
  · exact hspaces c h
  · exact hspaces' c h

/-- A letter or underscore, and then letters, digits and underscores. -/
def IsWord : List Char → Prop
  | [] => False
  | c :: rest => isWordStart c ∧ ∀ d ∈ rest, isWordPart d

/-- The words that are read as numbers. -/
def keywords : List (List Char) :=
  ["NaN".toList, "inf".toList, "Infinity".toList]

/-! ## Numbers -/

/-- Any decimal digits, or none. -/
def Digits (text : List Char) : Prop :=
  ∀ c ∈ text, c.isDigit

/-- An optional sign, and whether it is a minus. -/
inductive Sign : List Char → Bool → Prop
  | absent : Sign [] false
  | plus : Sign ['+'] false
  | minus : Sign ['-'] true

/-- The digits of a decimal, those before the point and those after it. -/
inductive Mantissa : List Char → List Char → List Char → Prop
  | whole {whole : List Char} (hne : whole ≠ []) (hwhole : Digits whole) :
      Mantissa whole whole []
  | pointed {whole fraction : List Char} (hne : whole ≠ []) (hwhole : Digits whole)
      (hfraction : Digits fraction) :
      Mantissa (whole ++ '.' :: fraction) whole fraction
  | fraction {fraction : List Char} (hne : fraction ≠ []) (hfraction : Digits fraction) :
      Mantissa ('.' :: fraction) [] fraction

/-- An optional power of ten. -/
inductive Power : List Char → ℤ → Prop
  | absent : Power [] 0
  | present {c : Char} {sign digits : List Char} {negative : Bool} (hletter : c = 'e' ∨ c = 'E')
      (hsign : Sign sign negative) (hne : digits ≠ []) (hdigits : Digits digits) :
      Power (c :: (sign ++ digits))
        (if negative then -Nat.ofDigitChars 10 digits 0 else Nat.ofDigitChars 10 digits 0)

/-- A decimal without sign, and the significand and the exponent it has as a whole number of a power
of ten. -/
inductive Unsigned : List Char → Nat → ℤ → Prop
  | mk {mantissa power whole fraction : List Char} {exponent : ℤ}
      (hmantissa : Mantissa mantissa whole fraction) (hpower : Power power exponent) :
      Unsigned (mantissa ++ power) (Nat.ofDigitChars 10 (whole ++ fraction) 0)
        (exponent - fraction.length)

/-- A number: an optional sign, and then a keyword or a decimal. -/
inductive Spells : List Char → Numeral → Prop
  | nan {sign : List Char} {negative : Bool} (hsign : Sign sign negative) :
      Spells (sign ++ "NaN".toList) .nan
  | infinite {sign word : List Char} {negative : Bool} (hsign : Sign sign negative)
      (hword : word = "inf".toList ∨ word = "Infinity".toList) :
      Spells (sign ++ word) (.infinite negative)
  | decimal {sign text : List Char} {negative : Bool} {significand : Nat} {exponent : ℤ}
      (hsign : Sign sign negative) (hdecimal : Unsigned text significand exponent) :
      Spells (sign ++ text) (.decimal negative significand exponent)

/-- A number and the double it stands for. -/
def NumberText (text : List Char) (x : Float) : Prop :=
  ∃ n, Spells text n ∧ n.Rounds x

theorem numberText_nan : NumberText "NaN".toList FloatArith.nan :=
  ⟨.nan, .nan .absent, .nan⟩

/-! ## Lists -/

section List

variable {β : Type} (Item : List Char → β → Prop)

/-- Any number of items, each with a comma before it. -/
inductive MoreText : List Char → List β → Prop
  | nil : MoreText [] []
  | cons {before after text rest : List Char} {value : β} {values : List β}
      (hbefore : Spaces before) (hafter : Spaces after) (hitem : Item text value)
      (hrest : MoreText rest values) :
      MoreText (before ++ ',' :: (after ++ (text ++ rest))) (value :: values)

/-- Items with commas between them, at least one. -/
inductive ListText : List Char → List β → Prop
  | cons {text rest : List Char} {value : β} {values : List β} (hitem : Item text value)
      (hrest : MoreText Item rest values) :
      ListText (text ++ rest) (value :: values)

end List

/-! ## Calls -/

/-- Numbers in brackets. -/
inductive VectorText : List Char → List Float → Prop
  | empty {spaces : List Char} (hspaces : Spaces spaces) :
      VectorText ('[' :: (spaces ++ [']'])) []
  | items {before text after : List Char} {values : List Float} (hbefore : Spaces before)
      (hitems : ListText NumberText text values) (hafter : Spaces after) :
      VectorText ('[' :: (before ++ (text ++ (after ++ [']'])))) values

/-- An argument. -/
inductive ArgumentText : List Char → Argument → Prop
  | vector {text : List Char} {values : List Float} (hvector : VectorText text values) :
      ArgumentText text (.vector values)
  | number {text : List Char} {x : Float} (hnumber : NumberText text x) :
      ArgumentText text (.number x)
  | identifier {text : List Char} (hword : IsWord text) (hkeyword : text ∉ keywords) :
      ArgumentText text (.identifier (String.ofList text))

/-- A whole source text. -/
inductive CallText : List Char → Call → Prop
  | mk {start name beforeOpen afterOpen args beforeClose finish : List Char}
      {values : List Argument} (hstart : Spaces start) (hname : IsWord name)
      (hbeforeOpen : Spaces beforeOpen) (hafterOpen : Spaces afterOpen)
      (hargs : ListText ArgumentText args values) (hbeforeClose : Spaces beforeClose)
      (hfinish : Spaces finish) :
      CallText (start ++ (name ++ (beforeOpen ++ '(' :: (afterOpen ++
        (args ++ (beforeClose ++ ')' :: finish)))))) ⟨String.ofList name, values⟩

theorem CallText.append_spaces {text spaces : List Char} {result : Call}
    (htext : CallText text result) (hspaces : Spaces spaces) :
    CallText (text ++ spaces) result := by
  cases htext with
  | mk hstart hname hbeforeOpen hafterOpen hargs hbeforeClose hfinish =>
      simpa only [List.append_assoc, List.cons_append] using CallText.mk hstart hname hbeforeOpen
        hafterOpen hargs hbeforeClose (hfinish.append hspaces)

end Grammar

end PNorm
