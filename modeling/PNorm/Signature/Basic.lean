import PNorm.Signature.Kind
import PNorm.Text.Measure

/-!
# Signatures

The signature of a function lists the operand lists it accepts, as alternatives
in a fixed order.  A call is matched against whole alternatives, and the
function is told the position of the first that fits.

A pattern spells a signature, its alternatives separated by `|`: under `V|VT` a
function takes a vector, or a vector and a scalar.  `Signature.ofPattern` reads
a pattern and reports its leftmost defect; `Signature.pattern` writes one.
-/

namespace PNorm

/-- The accepted operand lists of a function, in order. -/
structure Signature where
  alternatives : List (List Kind)
  deriving DecidableEq, Repr

/-- A defect of a pattern. -/
inductive PatternError where
  | emptyAlternative (pattern : String)
  /-- A letter that is no kind, with its offset in bytes. -/
  | invalidToken (pattern : String) (token : Char) (position : Nat)
  | duplicateAlternative (pattern alternative : String)
  deriving DecidableEq, Repr

def PatternError.message : PatternError → String
  | .emptyAlternative pattern => s!"Empty alternative in signature '{pattern}'"
  | .invalidToken pattern token position =>
      s!"Invalid token '{token}' at position {position} in signature '{pattern}'"
  | .duplicateAlternative pattern alternative =>
      s!"Duplicate alternative '{alternative}' in signature '{pattern}'"

namespace Signature

/-! ## Reading a pattern -/

/-- The kinds that the letters of one alternative stand for, or the first letter that stands for
none, with its offset in bytes when the alternative starts at `position`. -/
def kindsOfToken (position : Nat) : List Char → Except (Char × Nat) (List Kind)
  | [] => .ok []
  | c :: rest =>
      match Kind.ofToken? c with
      | none => .error (c, position)
      | some kind =>
          match kindsOfToken (position + c.utf8Size) rest with
          | .ok kinds => .ok (kind :: kinds)
          | .error defect => .error defect

/-- Read the pieces of a pattern from left to right, after `seen`.  `position` is the offset of the
next piece in bytes; the separator after a piece is one byte. -/
def readAlternatives (pattern : String) (position : Nat) (seen : List (List Kind)) :
    List (List Char) → Except PatternError (List (List Kind))
  | [] => .ok seen
  | piece :: rest =>
      if piece = [] then .error (.emptyAlternative pattern)
      else
        match kindsOfToken position piece with
        | .error (token, offset) => .error (.invalidToken pattern token offset)
        | .ok kinds =>
            if kinds ∈ seen then .error (.duplicateAlternative pattern (String.ofList piece))
            else
              let next := position + Text.byteLength piece + 1
              readAlternatives pattern next (seen ++ [kinds]) rest

/-- The signature that a pattern spells. -/
def ofPattern (pattern : String) : Except PatternError Signature :=
  match readAlternatives pattern 0 [] (pattern.toList.splitOn '|') with
  | .ok alternatives => .ok ⟨alternatives⟩
  | .error defect => .error defect

/-! ## Using a signature -/

/-- The pattern that spells a signature. -/
def pattern (s : Signature) : String :=
  String.intercalate "|" (s.alternatives.map kindsToken)

/-- The position of the first alternative that is exactly `kinds`. -/
def resolve (s : Signature) (kinds : List Kind) : Option Nat :=
  s.alternatives.idxOf? kinds

def isEmpty (s : Signature) : Bool :=
  s.alternatives.isEmpty

def size (s : Signature) : Nat :=
  s.alternatives.length

end Signature

end PNorm
