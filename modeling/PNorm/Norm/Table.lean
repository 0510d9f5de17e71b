import PNorm.Norm.Basic

/-!
# The table of routines

Every whole exponent up to `maxFixed` has a routine of its own.  A norm keeps these
routines in a table, in which the routine of `n` has the position `n - 1`.  Exponents
are machine words there, so that one less than zero is the largest word.

`PNorm.Norm.Basic` has no table: it compares the exponent with its bounds and takes
the routine.
-/

namespace PNorm.Norm

/-- The exponents that have a routine of their own, in the order of the table. -/
def tabulated : List Nat :=
  [1, 2, 3, 4, 5, 6, 7, 8,
   9, 10, 11, 12, 13, 14, 15, 16,
   17, 18, 19, 20, 21, 22, 23, 24,
   25, 26, 27, 28, 29, 30, 31, 32]

/-- A norm with its routines at hand. -/
structure Prepared (α : Type) where
  signature : Signature
  policy : ExponentPolicy
  routines : Array (List α → α)

namespace Prepared

variable {α : Type}

/-- The norm under a signature and a policy. -/
def new [Arith α] (signature : Signature) (policy : ExponentPolicy) : Prepared α where
  signature := signature
  policy := policy
  routines := (tabulated.map fixed).toArray

/-- The routine that the table has for a word. -/
def routine? (norm : Prepared α) (n : USize) : Option (List α → α) :=
  norm.routines[(n - 1).toNat]?

/-- The norm with the whole exponent `n`.  What is not in the table takes the general way. -/
def compute [Arith α] (norm : Prepared α) (values : List α) (n : USize) : α :=
  match norm.routine? n with
  | some routine => routine values
  | none => general (Arith.ofNat n.toNat) values

/-- The value of a call. -/
def apply [FloatArith α] (norm : Prepared α) (index : Nat) (operands : List (Operand α)) : α :=
  match operands.head?.bind Operand.vector?, exponent? norm.policy index operands with
  | some values, some (.fixed n) => norm.compute values (USize.ofNat n)
  | some values, some (.general p) => general p values
  | _, _ => FloatArith.nan

/-- The function that a session calls. -/
def function [FloatArith α] (norm : Prepared α) : Function α where
  signature := norm.signature
  apply := norm.apply

end Prepared

end PNorm.Norm
