import PNorm.Call.Diagnostic
import PNorm.Signature.Basic

/-!
# What a session refuses

Everything that can go wrong before a function is applied.  A function itself
reports no errors: it answers NaN.
-/

namespace PNorm

/-- The most functions that a registry holds. -/
def maxFunctions : Nat := 65536

/-- Why a definition or an evaluation was refused. -/
inductive SessionError where
  | unreadable (refusal : Call.Refusal)
  | unknownFunction (name : String)
  | undefinedVariable (name : String)
  /-- The operand kinds `got` are none of the alternatives of `expected`. -/
  | noMatchingSignature (function got expected : String)
  | invalidName (name : String)
  | duplicateName (name : String)
  | registryFull
  | emptySignature (name : String)
  | badPattern (defect : PatternError)
  deriving DecidableEq, Repr

def SessionError.message : SessionError → String
  | .unreadable refusal => "Parse error: " ++ refusal.message
  | .unknownFunction name => s!"Unknown function: {name}"
  | .undefinedVariable name => s!"Undefined variable: {name}"
  | .noMatchingSignature function got expected =>
      s!"No signature of {function}() accepts ({got}), expected one of: {expected}"
  | .invalidName name => s!"Invalid symbol name: '{name}'"
  | .duplicateName name => s!"Symbol already defined: {name}"
  | .registryFull => s!"Too many functions registered (max {maxFunctions})"
  | .emptySignature name => s!"Function '{name}' registered without any accepted call shape"
  | .badPattern defect => defect.message

end PNorm
