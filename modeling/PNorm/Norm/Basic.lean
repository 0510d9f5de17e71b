import PNorm.Function
import PNorm.Norm.Exponent
import PNorm.Norm.Power

/-!
# The norm

The norm of `v` with exponent `p` is the `p`-th root of the sum of the `p`-th
powers of the elements.  Powers are summed with their signs, from left to right:
with exponent one the norm is the signed sum, and an odd exponent can leave a
negative sum, whose root is NaN.

The function `norm` takes a vector, with the exponent two, or a vector and an
exponent.  It answers NaN for an exponent that is not accepted.
-/

namespace PNorm

namespace Norm

section Arith

variable {α : Type} [Arith α]

/-- The root of a sum of `n`-th powers. -/
def fixedRoot (n : Nat) (sum : α) : α :=
  match n with
  | 1 => sum
  | 2 => Arith.sqrt sum
  | n => Arith.pow sum (Arith.one / Arith.ofNat n)

/-- The norm with the whole exponent `n`, its powers computed by multiplication. -/
def fixed (n : Nat) (values : List α) : α :=
  fixedRoot n (values.foldl (fun sum x => sum + natPow x n) Arith.zero)

/-- The norm with any exponent. -/
def general (p : α) (values : List α) : α :=
  Arith.pow (values.foldl (fun sum x => sum + Arith.pow x p) Arith.zero) (Arith.one / p)

/-- The norm with an exponent whose way of computing is chosen.  A whole exponent that has no fixed
computation takes the general one. -/
def compute (values : List α) : Exponent α → α
  | .fixed n =>
      if 1 ≤ n ∧ n ≤ Exponent.maxFixed then fixed n values else general (Arith.ofNat n) values
  | .general p => general p values

end Arith

/-! ## The function -/

variable {α : Type} [FloatArith α]

/-- The exponent of a call, where the call went through the alternative at `index`. -/
def exponent? (policy : ExponentPolicy) (index : Nat) (operands : List (Operand α)) :
    Option (Exponent α) :=
  match index with
  | 0 => some (.fixed 2)
  | 1 => (operands[1]?.bind Operand.scalar?).bind (Exponent.classify policy)
  | _ => none

/-- The value of a call. -/
def apply (policy : ExponentPolicy) (index : Nat) (operands : List (Operand α)) : α :=
  match operands.head?.bind Operand.vector?, exponent? policy index operands with
  | some values, some exponent => compute values exponent
  | _, _ => FloatArith.nan

/-- The pattern of the norm: a vector, or a vector and an exponent. -/
def pattern : String := "V|VT"

/-- The norm as a function under a given signature. -/
def function (signature : Signature) (policy : ExponentPolicy) : Function α where
  signature := signature
  apply := apply policy

end Norm

end PNorm
