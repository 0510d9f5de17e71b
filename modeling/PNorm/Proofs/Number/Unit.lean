import Mathlib
import PNorm.Number.Arith

/-!
# One is a unit of rounded multiplication

Repeated squaring starts with one and multiplies it by the first base it needs.
This file proves that the first multiplication changes nothing, bit for bit, in
both floating-point types: `1 * x = x` for every `x`, zeros of both signs,
subnormal numbers, infinities and NaN included.

A product is computed on unpacked numbers, a sign, a significand and an exponent,
then rounded and packed again.  The argument is for every binary format at once:

* `canonical_unpack`: an unpacked number already has the exponent that rounding
  would choose;
* `mul_one_of_canonical`: so that multiplying by one, which appends zeros to the
  significand, is undone by rounding without a remainder.

Packing then gives the old bits back.
-/

open Float.Model Float.Model.UnpackedFloat

namespace PNorm.FloatUnit

/-- The number one before packing: a significand with all its digits, and the exponent that belongs
to it. -/
def unpackedOne (spec : Format) : UnpackedFloat :=
  .finite .positive (2 ^ spec.mantissaBitsWithoutImplicit) (-spec.mantissaBitsWithoutImplicit)
    (Nat.two_pow_pos _)

/-- A finite number that rounding leaves where it is. -/
def Canonical (spec : Format) : UnpackedFloat → Prop
  | .finite _ m e _ => spec.targetExponent (totalExponent m e) = e
  | _ => True

/-! ## Multiplying by one -/

theorem log2_two_pow_mul (k : Nat) {m : Nat} (hm : 0 < m) : (2 ^ k * m).log2 = k + m.log2 := by
  induction k with
  | zero => simp
  | succ k ih =>
      rw [Nat.pow_succ, Nat.mul_comm (2 ^ k) 2, Nat.mul_assoc,
        Nat.log2_two_mul (Nat.mul_ne_zero (Nat.ne_of_gt (Nat.two_pow_pos k)) (Nat.ne_of_gt hm)), ih]
      omega

/-- Zeros that were appended to a significand are shifted out again without a remainder. -/
theorem shiftRight_two_pow_mul (k : Nat) :
    ∀ m, (⟨2 ^ k * m, false, false⟩ : ExtendedMantissa) >>> k = ⟨m, false, false⟩ := by
  induction k with
  | zero =>
      intro m
      rw [Nat.pow_zero, Nat.one_mul]
      rfl
  | succ k ih =>
      intro m
      have hstep : (⟨2 ^ (k + 1) * m, false, false⟩ : ExtendedMantissa) >>> k
          = ⟨2 * m, false, false⟩ := by
        rw [Nat.pow_succ, Nat.mul_assoc]
        exact ih (2 * m)
      change ExtendedMantissa.shiftRightOne
        ((⟨2 ^ (k + 1) * m, false, false⟩ : ExtendedMantissa) >>> k) = _
      rw [hstep]
      simp [ExtendedMantissa.shiftRightOne]

/-- Rounding a significand with appended zeros gives the significand. -/
theorem shiftToTargetExponent_append (spec : Format) (k : Nat) {m : Nat} {e : Int} (hm : 0 < m)
    (hcanonical : spec.targetExponent (totalExponent m e) = e) :
    shiftToTargetExponent spec (2 ^ k * m) (-k + e) .exact = (⟨m, false, false⟩, e) := by
  have htotal : totalExponent (2 ^ k * m) (-k + e) = totalExponent m e := by
    simp only [totalExponent, log2_two_pow_mul k hm]
    omega
  have hamount : (e - (-k + e)).toNat = k := by omega
  simp only [shiftToTargetExponent, htotal, hcanonical, shiftToExponent, hamount,
    ExtendedMantissa.ofMantissaAndAccuracy, shiftRight_two_pow_mul, Prod.mk.injEq, true_and]
  omega

/-- So rounding gives the number that the zeros were appended to. -/
theorem roundWithAccuracy_append (spec : Format) (s : Sign) (k : Nat) {m : Nat} {e : Int}
    (hm : 0 < m) (hcanonical : spec.targetExponent (totalExponent m e) = e) :
    roundWithAccuracy spec s (2 ^ k * m) (-k + e) .exact = .finite s m e hm := by
  have hfirst := shiftToTargetExponent_append spec k hm hcanonical
  have hsecond := shiftToTargetExponent_append spec 0 hm hcanonical
  have hrounded : (⟨m, false, false⟩ : ExtendedMantissa).roundedMantissa = m := rfl
  simp only [Nat.pow_zero, Nat.one_mul, Int.natCast_zero, Int.neg_zero, Int.zero_add] at hsecond
  simp only [roundWithAccuracy, hfirst, hrounded, hsecond, Nat.ne_of_gt hm, ↓reduceDIte]

theorem sign_one_mul (s : Sign) : Sign.positive * s = s := by
  cases s <;> rfl

private theorem mul_one_of_canonical (spec : Format) {u : UnpackedFloat} (hu : Canonical spec u) :
    mul spec (unpackedOne spec) u = u := by
  cases u with
  | infinity s => exact congrArg UnpackedFloat.infinity (sign_one_mul s)
  | notANumber => rfl
  | zero s => exact congrArg UnpackedFloat.zero (sign_one_mul s)
  | finite s m e hm =>
      change roundWithAccuracy spec (Sign.positive * s)
        (2 ^ spec.mantissaBitsWithoutImplicit * m) _ .exact = _
      rw [roundWithAccuracy_append spec _ _ hm hu, sign_one_mul]

/-! ## Unpacked numbers -/

theorem minExponent_eq (spec : Format) :
    spec.minExponent = 1 - (spec.exponentBias + spec.mantissaBitsWithoutImplicit : Int) := by
  have hpow : 1 ≤ 2 ^ (spec.exponentBits - 1) := Nat.one_le_two_pow
  have hbias : (spec.exponentBias : Int) = 2 ^ (spec.exponentBits - 1) - 1 := by
    rw [Format.exponentBias, Int.natCast_sub hpow]
    simp
  rw [hbias, Format.minExponent, Format.mantissaBits]
  omega

theorem toNat_one_append {w : Nat} (v : BitVec w) : (1#1 ++ v).toNat = 2 ^ w + v.toNat := by
  rw [BitVec.toNat_append, ← Nat.shiftLeft_add_eq_or_of_lt v.isLt, Nat.shiftLeft_eq]
  simp

theorem log2_of_normal {w : Nat} (v : BitVec w) : (2 ^ w + v.toNat).log2 = w := by
  rw [Nat.log2_eq_iff (Nat.ne_of_gt (Nat.add_pos_left (Nat.two_pow_pos w) _)), Nat.pow_succ]
  have hlt := v.isLt
  omega

theorem canonical_unpack (spec : Format) (b : BitVec spec.numBits) :
    Canonical spec (UnpackedFloat.unpack spec b) := by
  unfold UnpackedFloat.unpack
  dsimp only
  split
  · split <;> trivial
  · by_cases hzero : unpackExponent b = 0#_
    · rw [if_pos hzero]
      by_cases hmantissa : unpackMantissa b = 0#_
      · rw [dif_pos hmantissa]
        trivial
      · -- a subnormal number has the least exponent
        rw [dif_neg hmantissa]
        have hpos : (unpackMantissa b).toNat ≠ 0 := by
          intro h
          exact hmantissa (BitVec.eq_of_toNat_eq h)
        have hlog : (unpackMantissa b).toNat.log2 < spec.mantissaBitsWithoutImplicit :=
          (Nat.log2_lt hpos).mpr (unpackMantissa b).isLt
        simp only [Canonical, hzero, BitVec.toNat_zero, Format.targetExponent, totalExponent,
          minExponent_eq, Format.mantissaBits]
        omega
    · rw [if_neg hzero]
      have hpos : (unpackExponent b).toNat ≠ 0 := by
        intro h
        exact hzero (BitVec.eq_of_toNat_eq h)
      simp only [Canonical, toNat_one_append, log2_of_normal, Format.targetExponent, totalExponent,
        minExponent_eq, Format.mantissaBits]
      omega

/-- Unpacking, multiplying by one and packing leaves the bits as they are. -/
theorem pack_mul_one (spec : Format) (hbits : 2 ≤ spec.exponentBits) {b : BitVec spec.numBits}
    (hb : spec.Valid b) :
    UnpackedFloat.pack spec (mul spec (unpackedOne spec) (UnpackedFloat.unpack spec b)) = b := by
  rw [mul_one_of_canonical spec (canonical_unpack spec b), pack_unpack_of_valid hb hbits]

end PNorm.FloatUnit

namespace PNorm

/-- Multiplying a double by one changes nothing. -/
theorem one_mul_double (x : Float) : 1.0 * x = x := by
  have hone : (1.0 : Float).toModel.unpack = FloatUnit.unpackedOne .binary64 := rfl
  have hpack := FloatUnit.pack_mul_one .binary64 (by decide) x.toModel.valid
  obtain ⟨⟨bits, hvalid⟩⟩ := x
  change Float.ofModel (Float.Model.pack (mul .binary64 (1.0 : Float).toModel.unpack
    (UnpackedFloat.unpack .binary64 bits.toBitVec))) = _
  rw [hone]
  simp only [Float.Model.pack, hpack]

/-- Multiplying a number of the 32-bit format by one changes nothing. -/
theorem one_mul_single (x : Float32) : 1.0 * x = x := by
  have hone : (1.0 : Float32).toModel.unpack = FloatUnit.unpackedOne .binary32 := rfl
  have hpack := FloatUnit.pack_mul_one .binary32 (by decide) x.toModel.valid
  obtain ⟨⟨bits, hvalid⟩⟩ := x
  change Float32.ofModel (Float32.Model.pack (mul .binary32 (1.0 : Float32).toModel.unpack
    (UnpackedFloat.unpack .binary32 bits.toBitVec))) = _
  rw [hone]
  simp only [Float32.Model.pack, hpack]

end PNorm
