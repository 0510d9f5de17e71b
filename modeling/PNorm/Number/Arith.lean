import PNorm.Number.Binary

/-!
# The arithmetic that norms are computed in

Norms are defined once, for every type that has the operations of `Arith`: the
two floating-point types below, and equally a type of exact numbers.
`FloatArith` adds what only floating-point numbers have, a NaN and an exact
reading of their bits.

No law is part of either class.  Floating-point addition and multiplication are
not associative, so every definition over `Arith` fixes the order of its
operations.
-/

namespace PNorm

/-- Numbers with the operations of a power mean. -/
class Arith (α : Type) extends Add α, Mul α, Div α where
  zero : α
  one : α
  /-- The number nearest to a natural number. -/
  ofNat : Nat → α
  sqrt : α → α
  /-- The first argument to the power of the second. -/
  pow : α → α → α

/-- Floating-point numbers. -/
class FloatArith (α : Type) extends Arith α where
  nan : α
  exactValue : α → ExactValue
  /-- The number nearest to a double, which is how a literal of a call is read. -/
  ofDouble : Float → α

instance : Arith Float where
  zero := 0.0
  one := 1.0
  ofNat := Float.ofNat
  sqrt := Float.sqrt
  pow := Float.pow

instance : FloatArith Float where
  nan := Float.ofBits 0x7FF8000000000000
  exactValue x := BinaryFormat.double.exactValue x.toBits.toNat
  ofDouble x := x

instance : Arith Float32 where
  zero := 0.0
  one := 1.0
  ofNat := Float32.ofNat
  sqrt := Float32.sqrt
  pow := Float32.pow

instance : FloatArith Float32 where
  nan := Float32.ofBits 0x7FC00000
  exactValue x := BinaryFormat.single.exactValue x.toBits.toNat
  ofDouble := Float.toFloat32

end PNorm
