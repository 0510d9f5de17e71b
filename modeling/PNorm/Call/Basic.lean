/-!
# Calls

The calculator evaluates one call at a time: the name of a function and its
arguments, each a number, a vector of numbers or the name of a bound value.
Literals are doubles whatever type the calculator computes in.
-/

namespace PNorm

/-- One argument of a call. -/
inductive Argument where
  | number (value : Float)
  | vector (values : List Float)
  | identifier (name : String)
  deriving DecidableEq, Repr

/-- A call of a function. -/
structure Call where
  name : String
  args : List Argument
  deriving DecidableEq, Repr

end PNorm
