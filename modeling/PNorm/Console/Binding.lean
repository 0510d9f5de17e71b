import PNorm.Number.Numeral
import PNorm.Text.Blank

/-!
# Bindings on the command line

A vector is bound by `name=1,2,3` and a scalar by `name=2.5`.  The name ends at
the first `=`.  Blanks are allowed around the name, the value and each number,
and a vector may stand in square brackets.  Of several defects the leftmost is
reported.
-/

namespace PNorm

/-- A name and the vector to bind it to. -/
structure VectorBinding where
  name : String
  values : List Float
  deriving DecidableEq, Repr

/-- A name and the scalar to bind it to. -/
structure ScalarBinding where
  name : String
  value : Float
  deriving DecidableEq, Repr

/-- Why a text is no binding. -/
inductive BindingError where
  | noEquals (text : String)
  | noName (text : String)
  | noNumber (piece : String)
  deriving DecidableEq, Repr

def BindingError.message : BindingError → String
  | .noEquals text => s!"expected NAME=VALUE, got '{text}'"
  | .noName text => s!"missing name in '{text}'"
  | .noNumber piece =>
      let reason := if piece.isEmpty then "cannot parse float from empty string"
        else "invalid float literal"
      s!"invalid number '{piece}': {reason}"

namespace Binding

/-- The trimmed name and the trimmed value of a binding. -/
def split (text : String) : Except BindingError (String × List Char) :=
  let cs := text.toList
  match cs.dropWhile (· != '=') with
  | [] => .error (.noEquals text)
  | _ :: value =>
      let name := Text.trim (cs.takeWhile (· != '='))
      if name = [] then .error (.noName text) else .ok (String.ofList name, Text.trim value)

/-- The number that a piece spells, without the blanks around it. -/
def number (piece : List Char) : Except BindingError Float :=
  let trimmed := Text.trim piece
  match Numeral.ofChars? trimmed with
  | some numeral => .ok numeral.toFloat
  | none => .error (.noNumber (String.ofList trimmed))

/-- The numbers that pieces spell, or the error of the leftmost that spells none. -/
def numbers : List (List Char) → Except BindingError (List Float)
  | [] => .ok []
  | piece :: rest =>
      match number piece with
      | .error error => .error error
      | .ok first =>
          match numbers rest with
          | .error error => .error error
          | .ok more => .ok (first :: more)

/-- The text without all leading `[` and all trailing `]`. -/
def stripBrackets (cs : List Char) : List Char :=
  ((cs.dropWhile (· == '[')).reverse.dropWhile (· == ']')).reverse

/-- The elements of a list of numbers, which may stand in brackets.  A blank list is empty. -/
def elements (value : List Char) : Except BindingError (List Float) :=
  let list := stripBrackets value
  if Text.trim list = [] then .ok [] else numbers (list.splitOn ',')

/-- Read the binding of a vector. -/
def readVector (text : String) : Except BindingError VectorBinding :=
  match split text with
  | .error error => .error error
  | .ok (name, value) =>
      match elements value with
      | .error error => .error error
      | .ok values => .ok ⟨name, values⟩

/-- Read the binding of a scalar. -/
def readScalar (text : String) : Except BindingError ScalarBinding :=
  match split text with
  | .error error => .error error
  | .ok (name, text) =>
      match number text with
      | .error error => .error error
      | .ok value => .ok ⟨name, value⟩

end Binding

end PNorm
