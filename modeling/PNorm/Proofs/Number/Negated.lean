import PNorm.Proofs.Number.Special

/-!
# Signs of products

Negating a number turns its sign round and leaves everything else, and rounding never
looks at the sign.  So a minus sign can be taken out of a product, in both types of
numbers and for every operand: the product of zeros, of infinities and of what is too
large or too small for the format turn round as well, and NaN stays NaN.

Numbers are negated in their bits, so a minus sign that is taken out has to get past
packing and unpacking: `unpack_pack_neg`.

The result is an instance of `HasDistribNeg`, so that the arguments of
`PNorm.Proofs.Norm.Signs` need not know that numbers have bits.
-/

open Float.Model (Format UnpackedFloat)
open Float.Model.UnpackedFloat

namespace PNorm

namespace Packed

theorem neg_neg_sign (s : Sign) : - -s = s := by
  cases s <;> rfl

theorem neg_mul_sign (s s' : Sign) : -s * s' = -(s * s') := by
  cases s <;> cases s' <;> rfl

theorem mul_neg_sign (s s' : Sign) : s * -s' = -(s * s') := by
  cases s <;> cases s' <;> rfl

theorem neg_neg (u : UnpackedFloat) : u.neg.neg = u := by
  cases u <;> simp only [neg, neg_neg_sign]

theorem roundWithAccuracy_neg (spec : Format) (s : Sign) (m : Nat) (e : Int) (accuracy : Accuracy) :
    roundWithAccuracy spec (-s) m e accuracy = (roundWithAccuracy spec s m e accuracy).neg := by
  simp only [roundWithAccuracy]
  split <;> rfl

theorem neg_mul (spec : Format) (u v : UnpackedFloat) :
    mul spec u.neg v = (mul spec u v).neg := by
  cases u <;> cases v <;> simp only [neg, mul, neg_mul_sign, roundWithAccuracy_neg]

theorem mul_neg (spec : Format) (u v : UnpackedFloat) :
    mul spec u v.neg = (mul spec u v).neg := by
  cases u <;> cases v <;> simp only [neg, mul, mul_neg_sign, roundWithAccuracy_neg]

theorem unpack_packComponents_neg (spec : Format) (s : Sign) (exponent : BitVec spec.exponentBits)
    (significand : BitVec spec.mantissaBitsWithoutImplicit) :
    unpack spec (packComponents spec (-s) exponent significand) =
      (unpack spec (packComponents spec s exponent significand)).neg := by
  simp only [unpack, unpackMantissa_packComponents, unpackExponent_packComponents,
    unpackSign_packComponents, Sign.ofBitVec_toBitVec]
  split_ifs <;> rfl

/-- A minus sign survives packing. -/
theorem unpack_pack_neg (spec : Format) (u : UnpackedFloat) :
    unpack spec (pack spec u.neg) = (unpack spec (pack spec u)).neg := by
  cases u with
  | notANumber => rw [neg, pack, unpack_packedNaN, neg]
  | infinity s => exact unpack_packComponents_neg spec s _ _
  | zero s => exact unpack_packComponents_neg spec s _ _
  | finite s m e hm =>
      simp only [neg, pack]
      split_ifs <;> exact unpack_packComponents_neg spec s _ _

end Packed

/-! ## Numbers that are packed -/

theorem PackedArith.bits_mul_number {α : Type} [FloatArith α] [PackedArith α] (x y : α) :
    bits (x * y) = pack (spec α) (mul (spec α) (number x) (number y)) :=
  bits_mul x y

/-- Packed numbers that are negated by their signs. -/
class PackedNeg (α : Type) [FloatArith α] [PackedArith α] [Neg α] : Prop where
  bits_neg (x : α) :
    PackedArith.bits (-x) =
      pack (PackedArith.spec α) (unpack (PackedArith.spec α) (PackedArith.bits x)).neg

namespace PackedNeg

open PackedArith

variable {α : Type} [FloatArith α] [PackedArith α] [Neg α] [PackedNeg α]

theorem number_neg (x : α) : number (-x) = (number x).neg := by
  rw [number, bits_neg, Packed.unpack_pack_neg, pack_unpack_of_valid (valid x) wide, number]

/-- The sign of a result is that of what is rounded. -/
theorem bits_neg_of_pack {x : α} {u : UnpackedFloat} (hx : bits x = pack (spec α) u) :
    bits (-x) = pack (spec α) u.neg := by
  rw [bits_neg, hx, ← Packed.unpack_pack_neg, pack_unpack_of_valid valid_pack wide]

theorem neg_neg (x : α) : - -x = x := by
  refine eq_of_bits ?_
  rw [bits_neg, ← number, number_neg, Packed.neg_neg, number, pack_unpack_of_valid (valid x) wide]

theorem neg_mul (x y : α) : -x * y = -(x * y) := by
  refine eq_of_bits ?_
  rw [bits_mul_number, number_neg, Packed.neg_mul, bits_neg_of_pack (bits_mul_number x y)]

theorem mul_neg (x y : α) : x * -y = -(x * y) := by
  refine eq_of_bits ?_
  rw [bits_mul_number, number_neg, Packed.mul_neg, bits_neg_of_pack (bits_mul_number x y)]

end PackedNeg

/-- A minus sign can be taken out of a product of packed numbers. -/
abbrev hasDistribNeg {α : Type} [FloatArith α] [PackedArith α] [Neg α] [PackedNeg α] :
    HasDistribNeg α where
  neg_neg := PackedNeg.neg_neg
  neg_mul := PackedNeg.neg_mul
  mul_neg := PackedNeg.mul_neg

/-! ## Both types -/

instance distribNegDouble : HasDistribNeg Float :=
  letI : FloatArith Float := .withPow Arith.pow
  haveI : PackedNeg Float := ⟨fun _ => rfl⟩
  hasDistribNeg

instance distribNegSingle : HasDistribNeg Float32 :=
  letI : FloatArith Float32 := .withPow Arith.pow
  haveI : PackedNeg Float32 := ⟨fun _ => rfl⟩
  hasDistribNeg

end PNorm
