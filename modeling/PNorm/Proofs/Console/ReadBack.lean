import PNorm.Console.Result
import PNorm.Proofs.Console.Bindings
import PNorm.Proofs.Number.Bits
import PNorm.Proofs.Number.Written
import PNorm.Proofs.Session.Names

/-!
# A shown result reads back

The text of a double is a number of the grammar that stands for that double
(`numberText_plain`): the NaN and the infinities are spelled with the keywords,
and a finite value is written as its shortest decimal, which reads back to the
bit.  Both readers take every number of the grammar, so the text can be pasted
into a call or into a binding, alone or in a list.

With a fixed number of places the text is still a number of the grammar, but of
course another one.

For a list the texts are joined by commas.  That a joined text is read as the list of
the values is an induction on the list (`listText_joined`), with the statement about one
number for each item.
-/

namespace PNorm

open Grammar

namespace Result

/-! ## One number -/

theorem spells_writeSign {digits : List Char} {significand : Nat} {exponent : ℤ} (negative : Bool)
    (hdigits : Unsigned digits significand exponent) :
    Spells (writeSign negative digits) (.decimal negative significand exponent) := by
  cases negative with
  | false => exact .decimal .absent hdigits
  | true => exact .decimal .minus hdigits

/-- The special values are spelled with the keywords, whatever number of places is asked for. -/
theorem numberText_infinite {x : Float} {negative : Bool}
    (hvalue : FloatArith.exactValue x = .infinite negative)
    (hx : x = Numeral.signed negative BinaryFormat.double.infinityBits) (places? : Option Nat) :
    NumberText (plain places? x).toList x := by
  subst hx
  cases negative with
  | false =>
      simp only [plain, hvalue]
      exact ⟨_, .infinite .absent (.inr rfl), .infinite false⟩
  | true =>
      simp only [plain, hvalue]
      exact ⟨_, .infinite .minus (.inr rfl), .infinite true⟩

/-- A finite double that is written as its shortest decimal, in any style, reads back. -/
theorem numberText_writeShortest (style : NumberStyle) (negative : Bool) {bits : Nat}
    (hbits : bits < BinaryFormat.double.infinityBits) :
    NumberText (writeShortest .double style negative (BinaryFormat.double.steps bits)
      BinaryFormat.double.depth) (Numeral.signed negative bits) := by
  obtain ⟨significand, exponent, htext, hnumber⟩ := Decimal.unsigned_write style
    (Decimal.shortest .double style.tie (BinaryFormat.double.steps bits)
      BinaryFormat.double.depth)
  have hnearest := Decimal.isNearest_shortest (f := .double) (by decide) (by decide)
    style.tie hbits.le
  rw [← hnumber] at hnearest
  exact ⟨_, spells_writeSign negative htext, .decimal negative significand exponent hnearest⟩

/-- **The text of a double stands for that double.** -/
theorem numberText_plain (x : Float) : NumberText (plain none x).toList x := by
  rcases double_cases x with ⟨hvalue, rfl⟩ | ⟨negative, hvalue, hx⟩ |
    ⟨negative, bits, hbits, hvalue, hx⟩
  · simp only [plain, hvalue]
    exact numberText_nan
  · exact numberText_infinite hvalue hx none
  · simp only [plain, hvalue, String.toList_ofList]
    rw [hx]
    exact numberText_writeShortest plainStyle negative hbits

/-- With any number of places that is allowed there is a text, and it is a number. -/
theorem exists_plain? {places : Nat} (hplaces : places ≤ maxPlaces) (x : Float) :
    ∃ text value, plain? (some places) x = some text ∧ NumberText text.toList value := by
  have hfits : fits (some places) x = true := by
    unfold fits
    cases FloatArith.exactValue x with
    | finite negative steps depth => exact decide_eq_true hplaces
    | infinite negative => rfl
    | nan => rfl
  obtain ⟨value, hvalue⟩ : ∃ value, NumberText (plain (some places) x).toList value := by
    rcases double_cases x with ⟨hvalue, rfl⟩ | ⟨negative, hvalue, hx⟩ |
      ⟨negative, bits, -, hvalue, -⟩
    · simp only [plain, hvalue]
      exact ⟨_, numberText_nan⟩
    · exact ⟨x, numberText_infinite hvalue hx (some places)⟩
    · simp only [plain, hvalue, String.toList_ofList, writePlaces]
      exact ⟨_, _, spells_writeSign negative (Decimal.unsigned_writeFixed places _),
        Numeral.rounds_iff.mpr rfl⟩
  exact ⟨_, value, by rw [plain?, if_pos hfits], hvalue⟩

/-! ## Lists -/

/-- The texts of some doubles with commas between them. -/
def joined (values : List Float) : String :=
  String.intercalate "," (values.map (plain none))

theorem toList_joined (values : List Float) :
    (joined values).toList = [','].intercalate (values.map fun x => (plain none x).toList) := by
  rw [joined, String.toList_intercalate, List.map_map]
  rfl

/-- A comma before a list makes it one that goes on. -/
theorem moreText_of_listText {text : List Char} {values : List Float}
    (htext : ListText NumberText text values) : MoreText NumberText (',' :: text) values := by
  cases htext with
  | cons hitem hrest => exact .cons spaces_nil spaces_nil hitem hrest

private theorem listText_joined (x : Float) (values : List Float) :
    ListText NumberText (joined (x :: values)).toList (x :: values) := by
  induction values generalizing x with
  | nil => simpa [toList_joined] using ListText.cons (numberText_plain x) .nil
  | cons y values ih =>
      have hcut : (joined (x :: y :: values)).toList =
          (plain none x).toList ++ ',' :: (joined (y :: values)).toList := by
        simp [toList_joined, List.intercalate]
      rw [hcut]
      exact .cons (numberText_plain x) (moreText_of_listText (ih y))

theorem vectorText_joined (values : List Float) :
    VectorText ('[' :: ((joined values).toList ++ [']'])) values := by
  cases values with
  | nil => exact .empty spaces_nil
  | cons x values => exact .items spaces_nil (listText_joined x values) spaces_nil

/-! ## The readers -/

section Readers

variable {name : String}

theorem parse_number {text : String} {x : Float} (hname : IsWord name.toList)
    (htext : NumberText text.toList x) :
    Call.parse (name ++ "(" ++ text ++ ")") = .ok ⟨name, [.number x]⟩ :=
  Call.parse_single hname (.number htext)

private theorem parse_joined (hname : IsWord name.toList) (values : List Float) :
    Call.parse (name ++ "(" ++ ("[" ++ joined values ++ "]") ++ ")") =
      .ok ⟨name, [.vector values]⟩ := by
  refine Call.parse_single hname (.vector ?_)
  simpa using vectorText_joined values

private theorem readVector_joined (hname : IsWord name.toList) (values : List Float) :
    Binding.readVector (name ++ "=" ++ joined values) = .ok ⟨name, values⟩ ∧
    Binding.readVector (name ++ "=" ++ ("[" ++ joined values ++ "]")) = .ok ⟨name, values⟩ := by
  have hvector := vectorText_joined values
  refine ⟨Binding.readVector_of_inside hname hvector, Binding.readVector_of_vectorText hname ?_⟩
  simpa using hvector

end Readers

private theorem plain?_none (x : Float) : plain? none x = some (plain none x) := by
  have hfits : fits none x = true := by
    unfold fits
    split
    · contradiction
    · rfl
  rw [plain?, if_pos hfits]

/-- Since it reads back, no two doubles have the same text. -/
theorem plain_injective : Function.Injective (plain none) := by
  intro x y htext
  have hx := numberText_plain x
  rw [htext] at hx
  have hargument := Call.argumentText_unique (.number hx) (.number (numberText_plain y))
  exact Argument.number.inj hargument

/-- **A shown result reads back.**  The text of a double, in a call or in a binding, is read as that
double, and the texts of a list of doubles are read as that list, in a call and in a binding with
brackets or without.  With a fixed number of places there still is a text that is a number. -/
theorem shown_results_read_back (name : String) (hname : IsWord name.toList) :
    (∀ x : Float, plain? none x = some (plain none x) ∧
      Call.parse (name ++ "(" ++ plain none x ++ ")") = .ok ⟨name, [.number x]⟩ ∧
      Binding.readScalar (name ++ "=" ++ plain none x) = .ok ⟨name, x⟩) ∧
    (∀ values : List Float,
      Call.parse (name ++ "(" ++ ("[" ++ joined values ++ "]") ++ ")") =
        .ok ⟨name, [.vector values]⟩ ∧
      Binding.readVector (name ++ "=" ++ joined values) = .ok ⟨name, values⟩ ∧
      Binding.readVector (name ++ "=" ++ ("[" ++ joined values ++ "]")) = .ok ⟨name, values⟩) ∧
    ∀ places ≤ maxPlaces, ∀ x : Float, ∃ text value, plain? (some places) x = some text ∧
      NumberText text.toList value ∧
      Call.parse (name ++ "(" ++ text ++ ")") = .ok ⟨name, [.number value]⟩ := by
  refine ⟨?_, ?_, ?_⟩
  · intro x
    have htext := numberText_plain x
    exact ⟨plain?_none x, parse_number hname htext, Binding.readScalar_of_numberText hname htext⟩
  · intro values
    exact ⟨parse_joined hname values, readVector_joined hname values⟩
  · intro places hplaces x
    obtain ⟨text, value, htext, hvalue⟩ := exists_plain? hplaces x
    exact ⟨text, value, htext, hvalue, parse_number hname hvalue⟩

theorem list_reads_back :
    IsWord "f".toList ∧ 2 ≤ maxPlaces ∧ joined [FloatArith.nan, -0.0, 0.1] = "NaN,-0,0.1" ∧
    Call.parse ("f" ++ "(" ++ ("[" ++ "NaN,-0,0.1" ++ "]") ++ ")") =
      .ok ⟨"f", [.vector [FloatArith.nan, -0.0, 0.1]]⟩ ∧
    ∃ text value, plain? (some 2) 0.1 = some text ∧ NumberText text.toList value ∧
      Call.parse ("f" ++ "(" ++ text ++ ")") = .ok ⟨"f", [.number value]⟩ := by
  have hname : IsWord "f".toList := by simp [IsWord, isWordStart]
  have hplaces : 2 ≤ maxPlaces := by decide
  have htext : joined [FloatArith.nan, -0.0, 0.1] = "NaN,-0,0.1" := by decide +kernel
  obtain ⟨-, hlists, hrounded⟩ := shown_results_read_back "f" hname
  refine ⟨hname, hplaces, htext, ?_, hrounded 2 hplaces 0.1⟩
  rw [← htext]
  exact (hlists _).1

end Result

end PNorm
