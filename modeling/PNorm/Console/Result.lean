import PNorm.Norm.Exponent
import PNorm.Number.Arith
import PNorm.Number.Layout
import PNorm.Text.Measure
import PNorm.Text.Quoted

/-!
# Showing results

A result is shown as plain text, as a line of a listing, or as a JSON document.
Plain text never uses an exponent and spells the special values as the call
grammar reads them.
-/

namespace PNorm.Result

/-- Plain numbers are written in full; of two equally near digit strings the upper is taken. -/
def plainStyle : NumberStyle where
  tie := .up
  positional _ := true
  keepsPoint := false

/-- Numbers in a document have an exponent below `10 ^ (-5)` and from `10 ^ 16` on, and keep a point
otherwise; of two equally near digit strings the even one is taken. -/
def documentStyle : NumberStyle where
  tie := .toEven
  positional power := -5 ≤ power && power < 16
  keepsPoint := true

/-! ## Plain text -/

/-- The most places that a number is written with. -/
def maxPlaces : Nat := 65535

/-- The text of a number, in full or with a fixed number of places. -/
def plain (places? : Option Nat) (x : Float) : String :=
  match FloatArith.exactValue x, places? with
  | .nan, _ => "NaN"
  | .infinite false, _ => "Infinity"
  | .infinite true, _ => "-Infinity"
  | .finite negative steps depth, some places =>
      String.ofList (writePlaces places negative steps depth)
  | .finite negative steps depth, none =>
      String.ofList (writeShortest .double plainStyle negative steps depth)

/-- Whether a number can be written with so many places.  The special values have none. -/
def fits (places? : Option Nat) (x : Float) : Bool :=
  match FloatArith.exactValue x, places? with
  | .finite .., some places => places ≤ maxPlaces
  | _, _ => true

/-- The text of a number, if it can be written with so many places. -/
def plain? (places? : Option Nat) (x : Float) : Option String :=
  if fits places? x then some (plain places? x) else none

/-- A line of a listing, with the expression on the left and the value in eight places on the
right. -/
def listingLine (expression : String) (value : Float) : String :=
  Text.padRight 12 expression ++ " = " ++ Text.padLeft 15 (plain (some 8) value)

/-! ## Documents -/

/-- A number in a document, where the special values are all `null`. -/
def documentNumber (x : Float) : List Char :=
  match FloatArith.exactValue x with
  | .finite negative steps depth => writeShortest .double documentStyle negative steps depth
  | _ => "null".toList

/-- The document of a result: the expression, its value and the configuration. -/
def document (expression : String) (value : Float) (policy : ExponentPolicy) : String :=
  let quoted (text : String) := String.ofList (Text.quote text.toList)
  String.intercalate "\n"
    ["\x7b",
     "  \"expression\": " ++ quoted expression ++ ",",
     "  \"value\": " ++ String.ofList (documentNumber value) ++ ",",
     "  \"config\": \x7b",
     "    \"exponent_policy\": " ++ quoted policy.name,
     "  \x7d",
     "\x7d"]

end PNorm.Result
