import PNorm.Number.Arith

/-!
# Testing and converting floating-point numbers

What a program can ask of a floating-point number: whether it is finite, how it
compares with another one, what it has behind the point, and which machine word
it is.  All answers are given by the operations of the machine, which round.

A conversion to words cuts off what is behind the point and stays within the
words, so that what is too large becomes the largest word.  `toWord?` compares
the number with the ends of the words first and gives no word beyond them.
-/

namespace PNorm

-- Powers of natural numbers are those of the core library, whatever else is imported.
attribute [local instance (high)] instPowNat

/-- Floating-point numbers with tests and conversions. -/
class MachineFloat (α : Type) extends FloatArith α, Sub α, Neg α where
  /-- Neither an infinity nor NaN. -/
  isFinite : α → Bool
  /-- The comparison `<`, which is false of NaN. -/
  lt : α → α → Bool
  /-- The comparison `==`, which is false of NaN and takes both zeros for equal. -/
  beq : α → α → Bool
  /-- The whole part as a word.  It is zero below the words, and the largest word beyond them. -/
  toWord : α → USize

instance : MachineFloat Float where
  isFinite := Float.isFinite
  lt := Float.lt
  beq := Float.beq
  toWord := Float.toUSize

instance : MachineFloat Float32 where
  isFinite := Float32.isFinite
  lt := Float32.lt
  beq := Float32.beq
  toWord := Float32.toUSize

namespace MachineFloat

variable {α : Type} [MachineFloat α]

/-- The whole part of a number, with the sign of the number. -/
def trunc (x : α) : α :=
  match FloatArith.exactValue x with
  | .finite negative steps depth =>
      let whole : α := Arith.ofNat (steps / 2 ^ depth)
      if negative then -whole else whole
  | _ => x

/-- What a number has behind the point. -/
def fract (x : α) : α :=
  x - trunc x

/-- The word of a number between minus one and the number of words, both excluded. -/
def toWord? (x : α) : Option USize :=
  if lt (-Arith.one) x && lt x (Arith.ofNat USize.size) then some (toWord x) else none

end MachineFloat

end PNorm
