import Mathlib
import PNorm.Number.Arith
import PNorm.Proofs.Call.Grammar
import PNorm.Proofs.Number.Rounding

/-!
# The bits of a double

Every double is a sign and the bits of a magnitude (`double_cases`): it is finite,
an infinity, or the one NaN.  The exact value is read off the same bits, so a
double can be put together again from its exact value.

A bit pattern is a number here, and its fields are quotients and remainders.  The
sign is the digit in front of the others, so it is gone from every field but its own
(`exactValue_signed`).  NaN is where this ends: many patterns mean it, the type has
one, and nothing is got back from its exact value but that it is NaN.
-/

namespace PNorm

namespace BinaryFormat

variable {f : BinaryFormat}

/-- The sign bit takes part in nothing but the sign. -/
theorem exactValue_signed {bits : Nat} (hbits : bits < f.signWeight) (negative : Bool) :
    f.exactValue ((if negative then f.signWeight else 0) + bits) =
      if bits < f.infinityBits then .finite negative (f.steps bits) f.depth
      else if bits = f.infinityBits then .infinite negative else .nan := by
  have hpos := Nat.two_pow_pos f.fractionBits
  have hweight : f.signWeight = 2 ^ f.exponentBits * 2 ^ f.fractionBits := Nat.pow_add _ _ _
  have hexponent : bits / 2 ^ f.fractionBits < 2 ^ f.exponentBits :=
    Nat.div_lt_of_lt_mul (by rw [Nat.mul_comm, ← hweight]; exact hbits)
  have hfraction : ((if negative then f.signWeight else 0) + bits) % 2 ^ f.fractionBits =
      bits % 2 ^ f.fractionBits := by
    cases negative with
    | false => simp
    | true => simp [hweight]
  have hexponent' : ((if negative then f.signWeight else 0) + bits) / 2 ^ f.fractionBits %
      2 ^ f.exponentBits = bits / 2 ^ f.fractionBits := by
    cases negative with
    | false => simpa using Nat.mod_eq_of_lt hexponent
    | true =>
        rw [if_pos rfl, hweight, Nat.add_comm, Nat.add_mul_div_right _ _ hpos, Nat.add_mod_right,
          Nat.mod_eq_of_lt hexponent]
  have hsign : (((if negative then f.signWeight else 0) + bits) / f.signWeight % 2 == 1) =
      negative := by
    cases negative with
    | false => simp [Nat.div_eq_of_lt hbits]
    | true =>
        have hweightPos : 0 < f.signWeight := Nat.two_pow_pos _
        rw [if_pos rfl, Nat.add_div_left _ hweightPos, Nat.div_eq_of_lt hbits]
        rfl
  -- With the sign cut off, the pattern is an exponent field and a fraction.
  have hsplit := Nat.div_add_mod' bits (2 ^ f.fractionBits)
  simp only [exactValue, hfraction, hexponent', hsign]
  by_cases hlt : bits < f.infinityBits
  · have hfinite : bits / 2 ^ f.fractionBits < 2 ^ f.exponentBits - 1 :=
      Nat.div_lt_of_lt_mul (by rw [Nat.mul_comm]; exact hlt)
    rw [if_neg (by omega), if_pos hlt, steps]
    split <;> rfl
  · -- The exponent field is full, so the fraction tells infinity from NaN.
    have hge : 2 ^ f.exponentBits - 1 ≤ bits / 2 ^ f.fractionBits :=
      (Nat.le_div_iff_mul_le hpos).mpr (Nat.le_of_not_lt hlt)
    have hfull : bits / 2 ^ f.fractionBits = 2 ^ f.exponentBits - 1 := by omega
    have hzero : bits % 2 ^ f.fractionBits = 0 ↔ bits = f.infinityBits := by
      rw [hfull] at hsplit
      rw [infinityBits]
      omega
    rw [if_pos (by omega), if_neg hlt]
    simp only [hzero]

private theorem fields_of_nan {bits : Nat} (hbits : f.exactValue bits = .nan) :
    bits / 2 ^ f.fractionBits % 2 ^ f.exponentBits + 1 = 2 ^ f.exponentBits ∧
      bits % 2 ^ f.fractionBits ≠ 0 := by
  simp only [exactValue] at hbits
  by_cases hfull : bits / 2 ^ f.fractionBits % 2 ^ f.exponentBits + 1 = 2 ^ f.exponentBits
  · rw [if_pos hfull] at hbits
    refine ⟨hfull, fun hzero => ?_⟩
    rw [if_pos hzero] at hbits
    cases hbits
  · rw [if_neg hfull] at hbits
    split at hbits <;> cases hbits

end BinaryFormat

/-! ## Doubles -/

/-- There is one NaN. -/
theorem eq_nan_of_exactValue {x : Float} (hx : FloatArith.exactValue x = .nan) :
    x = FloatArith.nan := by
  obtain ⟨hexponent, hfraction⟩ : x.toBits.toNat / 2 ^ 52 % 2 ^ 11 + 1 = 2 ^ 11 ∧
      x.toBits.toNat % 2 ^ 52 ≠ 0 := BinaryFormat.fields_of_nan (f := .double) hx
  have hpacked : x.toBits.toBitVec = 0x7FF8000000000000#64 := by
    refine x.toModel.valid.eq_packedNaN ?_ ?_
    · apply BitVec.eq_of_toNat_eq
      have hshift : x.toBits.toNat >>> 52 % 2 ^ 11 = 2 ^ 11 - 1 := by
        rw [Nat.shiftRight_eq_div_pow]
        omega
      simpa [Float.Model.UnpackedFloat.unpackExponent, Float.toBits] using hshift
    · intro hzero
      have hmod := congrArg BitVec.toNat hzero
      refine hfraction ?_
      simpa [Float.Model.UnpackedFloat.unpackMantissa, Float.toBits] using hmod
  have hbits : x.toBits = 0x7FF8000000000000 := UInt64.toBitVec_inj.mp hpacked
  rw [← Float.ofBits_toBits x, hbits]
  rfl

/-- A double is the NaN, an infinity, or finite. -/
theorem double_cases (x : Float) :
    (FloatArith.exactValue x = .nan ∧ x = FloatArith.nan) ∨
    (∃ negative, FloatArith.exactValue x = .infinite negative ∧
      x = Numeral.signed negative BinaryFormat.double.infinityBits) ∨
    ∃ negative bits, bits < BinaryFormat.double.infinityBits ∧
      FloatArith.exactValue x =
        .finite negative (BinaryFormat.double.steps bits) BinaryFormat.double.depth ∧
      x = Numeral.signed negative bits := by
  set weight := BinaryFormat.double.signWeight with hweight
  obtain ⟨negative, bits, hbits, htoBits⟩ : ∃ (negative : Bool) (bits : Nat), bits < weight ∧
      x.toBits.toNat = (if negative then weight else 0) + bits := by
    have hdouble : 2 * weight = 2 ^ 64 := by
      norm_num [hweight, BinaryFormat.signWeight, BinaryFormat.double]
    have hlt := x.toBits.toNat_lt
    rcases Nat.lt_or_ge x.toBits.toNat weight with hlow | hhigh
    · exact ⟨false, x.toBits.toNat, hlow, (Nat.zero_add _).symm⟩
    · exact ⟨true, x.toBits.toNat - weight, by omega, (Nat.add_sub_cancel' hhigh).symm⟩
  have hvalue := BinaryFormat.exactValue_signed hbits negative
  rw [← hweight, ← htoBits] at hvalue
  have hx : x = Numeral.signed negative bits := by
    rw [Numeral.signed, ← hweight, ← htoBits, UInt64.ofNat_toNat, Float.ofBits_toBits]
  change FloatArith.exactValue x = _ at hvalue
  by_cases hfinite : bits < BinaryFormat.double.infinityBits
  · rw [if_pos hfinite] at hvalue
    exact .inr (.inr ⟨negative, bits, hfinite, hvalue, hx⟩)
  · rw [if_neg hfinite] at hvalue
    by_cases hinfinity : bits = BinaryFormat.double.infinityBits
    · rw [if_pos hinfinity] at hvalue
      exact .inr (.inl ⟨negative, hvalue, hinfinity ▸ hx⟩)
    · rw [if_neg hinfinity] at hvalue
      exact .inl ⟨hvalue, eq_nan_of_exactValue hvalue⟩

end PNorm
