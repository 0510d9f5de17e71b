import PNorm.Session.Symbols

/-!
# Evaluating a call

An evaluation reads the source, finds the function, finds the value of every
argument from left to right, matches the kinds of the operands against the
signature and applies the function.  The first step that fails gives the error.
An evaluation changes nothing.
-/

namespace PNorm.Session

variable {α : Type} [FloatArith α]

/-- The operand that an argument stands for. -/
def operand (s : Session α) : Argument → Except SessionError (Operand α)
  | .number value => .ok (.scalar (FloatArith.ofDouble value))
  | .vector values => .ok (.vector (values.map FloatArith.ofDouble))
  | .identifier name =>
      match s.vector? name, s.scalar? name with
      | some values, _ => .ok (.vector values)
      | none, some value => .ok (.scalar value)
      | none, none => .error (.undefinedVariable name)

/-- The operands of an argument list, or the error of the leftmost argument that has none. -/
def operands (s : Session α) : List Argument → Except SessionError (List (Operand α))
  | [] => .ok []
  | arg :: rest =>
      match s.operand arg with
      | .error error => .error error
      | .ok first =>
          match s.operands rest with
          | .error error => .error error
          | .ok more => .ok (first :: more)

/-- The value of a call. -/
def evaluateCall (s : Session α) (call : Call) : Except SessionError α :=
  match s.function? call.name with
  | none => .error (.unknownFunction call.name)
  | some function =>
      match s.operands call.args with
      | .error error => .error error
      | .ok operands =>
          let kinds := operands.map Operand.kind
          match function.signature.resolve kinds with
          | none =>
              .error (.noMatchingSignature call.name (kindsToken kinds) function.signature.pattern)
          | some index => .ok (function.apply index operands)

/-- The value of a source text. -/
def evaluate (s : Session α) (source : String) : Except SessionError α :=
  match Call.parse source with
  | .error refusal => .error (.unreadable refusal)
  | .ok call => s.evaluateCall call

end PNorm.Session
