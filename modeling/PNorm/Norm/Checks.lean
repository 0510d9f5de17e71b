import PNorm.Norm.Exponent
import PNorm.Number.Machine

/-!
# The checks of an exponent

An exponent goes through five checks, one after the other: whether it is finite,
whether it is below one, whether it has anything behind the point, whether it is
a machine word, and whether that word has a routine.

`PNorm.Norm.Exponent` makes none of them: it reads the bits of the exponent and
decides by its exact value.  The conversion to machine words comes from outside
and is a parameter.
-/

namespace PNorm.Exponent

variable {α : Type}

/-- The way of an exponent that is not whole. -/
def ofFraction (policy : ExponentPolicy) (p : α) : Option (Exponent α) :=
  match policy with
  | .integerOnly => none
  | .allowFractional => some (.general p)

/-- The way of a whole exponent, which may be a machine word. -/
def ofWord (p : α) (word : Option USize) : Exponent α :=
  match word with
  | some n => if n.toNat ≤ maxFixed then .fixed n.toNat else .general p
  | none => .general p

/-- The way of an exponent, or `none` if it is not accepted. -/
def check [MachineFloat α] (toWord? : α → Option USize) (policy : ExponentPolicy) (p : α) :
    Option (Exponent α) :=
  if !MachineFloat.isFinite p || MachineFloat.lt p Arith.one then none
  else if !MachineFloat.beq (MachineFloat.fract p) Arith.zero then ofFraction policy p
  else some (ofWord p (toWord? p))

end PNorm.Exponent
