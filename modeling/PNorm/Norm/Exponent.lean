import PNorm.Number.Arith

/-!
# Exponents of a norm

Which exponents a norm accepts, and which way of computing it an exponent takes.
An accepted exponent is finite and at least one.  Whole exponents up to
`maxFixed` are computed by multiplication alone; all others need general powers.
-/

namespace PNorm

/-- Whether exponents that are not whole are accepted. -/
inductive ExponentPolicy where
  | integerOnly
  | allowFractional
  deriving DecidableEq, Repr

/-- The name of a policy in a configuration. -/
def ExponentPolicy.name : ExponentPolicy → String
  | .integerOnly => "integer_only"
  | .allowFractional => "allow_fractional"

/-- The policy of a name. -/
def ExponentPolicy.ofName? (name : String) : Option ExponentPolicy :=
  if name = "integer_only" then some .integerOnly
  else if name = "allow_fractional" then some .allowFractional
  else none

@[simp] theorem ExponentPolicy.ofName?_name (policy : ExponentPolicy) :
    ofName? policy.name = some policy := by
  cases policy <;> rfl

/-- The exponent of a norm, by the way it is computed. -/
inductive Exponent (α : Type) where
  | fixed (n : Nat)
  | general (p : α)
  deriving DecidableEq, Repr

namespace Exponent

/-- The largest exponent that is computed by multiplication. -/
def maxFixed : Nat := 32

variable {α : Type} [FloatArith α]

/-- The way of an exponent, or `none` if it is not accepted: it is NaN, infinite, below one, or not
whole under `integerOnly`. -/
def classify (policy : ExponentPolicy) (p : α) : Option (Exponent α) :=
  let value := FloatArith.exactValue p
  if value.isAtLeastOne then
    match value.natural?, policy with
    | some n, _ => if n ≤ maxFixed then some (.fixed n) else some (.general p)
    | none, .allowFractional => some (.general p)
    | none, .integerOnly => none
  else
    none

end Exponent

end PNorm
