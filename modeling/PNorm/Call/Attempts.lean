/-!
# What a reader expected

When a text is no call, the message names what was expected at the furthest
place that the reader came to.  `Attempts` is the record it keeps on the way:
the furthest offset at which a rule was refused, and the rules refused there.
-/

namespace PNorm

/-- The rules of the call grammar that a message can name, in the order it names them. -/
inductive Rule where
  | finish
  | program
  | call
  | arg
  | vector
  | number
  | identifier
  deriving DecidableEq, Repr

namespace Rule

/-- All rules, in the order in which a message names them. -/
def all : List Rule :=
  [.finish, .program, .call, .arg, .vector, .number, .identifier]

/-- The name of a rule in a message. -/
def name : Rule → String
  | .finish => "EOI"
  | .program => "program"
  | .call => "call"
  | .arg => "arg"
  | .vector => "vector"
  | .number => "number"
  | .identifier => "identifier"

end Rule

/-- The furthest offset at which a rule was refused, and the rules refused there. -/
structure Attempts where
  offset : Nat
  rules : List Rule
  deriving DecidableEq, Repr

namespace Attempts

/-- Nothing was refused yet. -/
def none : Attempts := ⟨0, []⟩

/-- How many rules are recorded at `offset`. -/
def countAt (a : Attempts) (offset : Nat) : Nat :=
  if offset = a.offset then a.rules.length else 0

/-- Record that `rule`, tried at `offset`, was refused; `before` is what `countAt` gave when the
trial began.

A refusal nearer than the record is not recorded.  If exactly one part of the rule was refused at
the same place, that part says more than the rule and stays in its stead.  Otherwise the rule
replaces its parts. -/
def refuse (a : Attempts) (rule : Rule) (offset before : Nat) : Attempts :=
  if a.countAt offset = before + 1 then a
  else if offset = a.offset then ⟨offset, a.rules.take before ++ [rule]⟩
  else if a.offset < offset then ⟨offset, [rule]⟩
  else a

/-- The recorded rules without repetition, in the order of `Rule.all`. -/
def expected (a : Attempts) : List Rule :=
  Rule.all.filter (· ∈ a.rules)

end Attempts

end PNorm
