import PNorm.Number.Arith
import PNorm.Signature.Basic

/-!
# Functions

A function of the calculator takes a list of operands, each a vector or a
scalar, and returns one number.  It has no state and cannot fail: a function
that has no answer returns NaN.
-/

namespace PNorm

/-- One entry of an operand list.  `==` compares the numbers by their own `==`, so that a NaN
differs from itself. -/
inductive Operand (α : Type) where
  | vector (values : List α)
  | scalar (value : α)
  deriving BEq, DecidableEq, Repr

namespace Operand

variable {α : Type}

def kind : Operand α → Kind
  | .vector _ => .vector
  | .scalar _ => .scalar

def vector? : Operand α → Option (List α)
  | .vector values => some values
  | .scalar _ => none

def scalar? : Operand α → Option α
  | .vector _ => none
  | .scalar value => some value

end Operand

/-- A function over numbers of type `α`.  `apply` gets the position of the matching alternative and
the operands. -/
structure Function (α : Type) where
  signature : Signature
  apply : Nat → List (Operand α) → α

namespace Function

variable {α : Type} [Arith α]

/-- The function that counts its operands. -/
def count (signature : Signature) : Function α where
  signature := signature
  apply _ operands := Arith.ofNat operands.length

/-- The function that tells which alternative it was called through. -/
def position (signature : Signature) : Function α where
  signature := signature
  apply index _ := Arith.ofNat index

end Function

end PNorm
