import PNorm.Proofs.Number.Exact
import PNorm.Proofs.Number.Unit

/-!
# Numbers that are packed into a format

A result of rounded arithmetic is rounded to a number that fits into its format and
then packed into bits.  This file says what is left of the result when the bits are
unpacked again, as far as zeros and NaN go, for every binary format at once.

* `nonzero_roundWithAccuracy`: a significand that is not zero stays so, and keeps its
  sign, if its exponent is not below the least one.  It may become infinite.
* `eq_zero_negative_of_add`: for that reason a sum is the negative zero only if both
  of its operands are.
* `nonzero_one_div`: for that reason too, one divided by a positive number is
  positive.  Here the format has to have enough room above its least number.

`exactValue_toNat` compares the fields of a bit pattern with its exact value.
-/

open Float.Model (Format UnpackedFloat totalExponent)
open Float.Model.UnpackedFloat

namespace PNorm.Packed

/-! ## The fields of a bit pattern -/

theorem eq_full_iff {w : Nat} {v : BitVec w} : v = -1#_ ↔ v.toNat + 1 = 2 ^ w := by
  have hlt := v.isLt
  rw [BitVec.neg_one_eq_allOnes, ← BitVec.toNat_inj, BitVec.toNat_allOnes]
  omega

theorem eq_zero_iff {w : Nat} {v : BitVec w} : v = 0#w ↔ v.toNat = 0 := by
  rw [← BitVec.toNat_inj, BitVec.toNat_zero]

/-- What a sign, an exponent field and a significand field stand for. -/
inductive Fields (spec : Format) (s : Sign) (exponent significand : Nat) : UnpackedFloat → Prop
  | infinity (hexponent : exponent + 1 = 2 ^ spec.exponentBits) (hsignificand : significand = 0) :
      Fields spec s exponent significand (.infinity s)
  | notANumber (hexponent : exponent + 1 = 2 ^ spec.exponentBits) (hsignificand : significand ≠ 0) :
      Fields spec s exponent significand .notANumber
  | zero (hexponent : exponent = 0) (hsignificand : significand = 0) :
      Fields spec s exponent significand (.zero s)
  | subnormal (hexponent : exponent = 0) (hsignificand : 0 < significand) :
      Fields spec s exponent significand (.finite s significand spec.minExponent hsignificand)
  | normal (hpos : 0 < exponent) (hlt : exponent + 1 < 2 ^ spec.exponentBits) {m : Nat} {e : Int}
      (hm : 0 < m) (hsignificand : m = 2 ^ spec.mantissaBitsWithoutImplicit + significand)
      (he : e = spec.minExponent + exponent - 1) :
      Fields spec s exponent significand (.finite s m e hm)

theorem fields_unpack (spec : Format) (b : BitVec spec.numBits) :
    Fields spec (Sign.ofBitVec (unpackSign b)) (unpackExponent b).toNat (unpackMantissa b).toNat
      (unpack spec b) := by
  have hmin := FloatUnit.minExponent_eq spec
  have hlt := (unpackExponent b).isLt
  unfold unpack
  dsimp only
  by_cases hfull : unpackExponent b = -1#_
  · rw [if_pos hfull]
    -- The exponent field is full.
    rw [eq_full_iff] at hfull
    by_cases hzero : unpackMantissa b = 0#_
    · rw [if_pos hzero]
      exact .infinity hfull (eq_zero_iff.mp hzero)
    · rw [if_neg hzero]
      exact .notANumber hfull (eq_zero_iff.not.mp hzero)
  · rw [if_neg hfull]
    rw [eq_full_iff] at hfull
    by_cases hexponent : unpackExponent b = 0#_
    · rw [if_pos hexponent]
      -- The exponent field is empty.
      rw [eq_zero_iff] at hexponent
      by_cases hzero : unpackMantissa b = 0#_
      · rw [dif_pos hzero]
        exact .zero hexponent (eq_zero_iff.mp hzero)
      · rw [dif_neg hzero]
        have he : ((unpackExponent b).toNat : Int) -
            (spec.exponentBias + spec.mantissaBitsWithoutImplicit) + 1 = spec.minExponent := by
          omega
        simp only [he]
        exact .subnormal hexponent (Nat.pos_of_ne_zero (eq_zero_iff.not.mp hzero))
    · rw [if_neg hexponent]
      rw [eq_zero_iff] at hexponent
      exact .normal (by omega) (by omega) _ (FloatUnit.toNat_one_append _) (by omega)

/-! ## Exact values -/

/-- The format in which exact values are read. -/
def format (spec : Format) : BinaryFormat :=
  ⟨spec.mantissaBitsWithoutImplicit, spec.exponentBits⟩

/-- The exact value of an unpacked number, in steps of the least number of the format. -/
def value (spec : Format) : UnpackedFloat → ExactValue
  | .notANumber => .nan
  | .infinity s => .infinite (s == .negative)
  | .zero s => .finite (s == .negative) 0 (format spec).depth
  | .finite s m e _ =>
      .finite (s == .negative) (m * 2 ^ (e - spec.minExponent).toNat) (format spec).depth

private theorem toNat_unpackMantissa {spec : Format} (b : BitVec spec.numBits) :
    (unpackMantissa b).toNat = b.toNat % 2 ^ spec.mantissaBitsWithoutImplicit := by
  rw [unpackMantissa_def, BitVec.extractLsb'_toNat, Nat.shiftRight_zero]

private theorem toNat_unpackExponent {spec : Format} (b : BitVec spec.numBits) :
    (unpackExponent b).toNat =
      b.toNat / 2 ^ spec.mantissaBitsWithoutImplicit % 2 ^ spec.exponentBits := by
  rw [unpackExponent_def, BitVec.extractLsb'_toNat, Nat.shiftRight_eq_div_pow]

private theorem ofBitVec_unpackSign {spec : Format} (b : BitVec spec.numBits) :
    (Sign.ofBitVec (unpackSign b) == .negative) =
      (b.toNat / 2 ^ (spec.exponentBits + spec.mantissaBitsWithoutImplicit) % 2 == 1) := by
  simp only [unpackSign_def, Sign.ofBitVec, eq_zero_iff, BitVec.extractLsb'_toNat,
    Nat.shiftRight_eq_div_pow, Nat.pow_one, Nat.add_comm spec.mantissaBitsWithoutImplicit]
  rcases Nat.mod_two_eq_zero_or_one
    (b.toNat / 2 ^ (spec.exponentBits + spec.mantissaBitsWithoutImplicit)) with h | h
  · rw [h]
    rfl
  · rw [h]
    rfl

/-- Both ways to read a bit pattern agree. -/
theorem exactValue_toNat (spec : Format) (b : BitVec spec.numBits) :
    (format spec).exactValue b.toNat = value spec (unpack spec b) := by
  have hfields := fields_unpack spec b
  have hpow : 2 ≤ 2 ^ spec.exponentBits := Nat.le_self_pow spec.he.ne' 2
  have hsign := ofBitVec_unpackSign b
  have hexponent := toNat_unpackExponent b
  have hsignificand := toNat_unpackMantissa b
  simp only [BinaryFormat.exactValue, BinaryFormat.signWeight,
    show (format spec).fractionBits = spec.mantissaBitsWithoutImplicit from rfl,
    show (format spec).exponentBits = spec.exponentBits from rfl, ← hsign, ← hexponent,
    ← hsignificand]
  -- From here on the fields are any numbers that belong together.
  clear hsign hexponent hsignificand
  generalize (unpackExponent b).toNat = exponent at hfields
  generalize (unpackMantissa b).toNat = significand at hfields
  generalize unpack spec b = u at hfields
  cases hfields with
  | infinity hexponent hsignificand =>
      rw [if_pos hexponent, if_pos hsignificand]
      rfl
  | notANumber hexponent hsignificand =>
      rw [if_pos hexponent, if_neg hsignificand]
      rfl
  | zero hexponent hsignificand =>
      rw [if_neg (by omega), if_pos hexponent, hsignificand]
      rfl
  | subnormal hexponent hsignificand =>
      rw [if_neg (by omega), if_pos hexponent, value, Int.sub_self, Int.toNat_zero, Nat.pow_zero,
        Nat.mul_one]
  | normal hpos hlt _ hm he =>
      have hsteps : (spec.minExponent + exponent - 1 - spec.minExponent).toNat = exponent - 1 := by
        omega
      rw [if_neg (by omega), if_neg (by omega), value, hm, he, hsteps]

/-! ## Rounding -/

/-- A significand and an exponent that fit into a format. -/
structure Fits (spec : Format) (m : Nat) (e : Int) : Prop where
  pos : 0 < m
  short : m.log2 < spec.mantissaBits
  le : spec.minExponent ≤ e

/-- An unpacked number fits, and its exponent is so small that one can be divided by it. -/
theorem fits_of_unpack {spec : Format} (hwide : 2 ≤ spec.exponentBits) {b : BitVec spec.numBits}
    {s : Sign} {m : Nat} {e : Int} {hm : 0 < m} (h : unpack spec b = .finite s m e hm) :
    Fits spec m e ∧
      e + spec.minExponent + 2 * spec.mantissaBitsWithoutImplicit ≤ 1 := by
  have hfields := fields_unpack spec b
  have hlt := (unpackMantissa b).isLt
  have hbits : spec.mantissaBits = 1 + spec.mantissaBitsWithoutImplicit := rfl
  have hmin : spec.minExponent =
      3 - ((2 ^ (spec.exponentBits - 1) : Nat) : Int) - spec.mantissaBits := by
    rw [Format.minExponent]
    push_cast
    rfl
  have hhalf : 2 ≤ 2 ^ (spec.exponentBits - 1) := Nat.le_self_pow (by omega) 2
  have htwice : 2 * 2 ^ (spec.exponentBits - 1) = 2 ^ spec.exponentBits := by
    rw [← Nat.pow_succ', Nat.succ_eq_add_one, Nat.sub_add_cancel spec.he]
  rw [h] at hfields
  cases hfields with
  | subnormal hexponent hsignificand =>
      have hlog := (Nat.log2_lt hm.ne').mpr hlt
      exact ⟨⟨hm, by omega, le_refl _⟩, by omega⟩
  | normal hpos hfull _ hsignificand he =>
      have hlog : m.log2 = spec.mantissaBitsWithoutImplicit := by
        rw [hsignificand, FloatUnit.log2_of_normal]
      exact ⟨⟨hm, by omega, by omega⟩, by omega⟩

theorem mantissa_shiftRight (em : ExtendedMantissa) (k : Nat) :
    (em >>> k).mantissa = em.mantissa / 2 ^ k := by
  induction k with
  | zero => exact (Nat.div_one _).symm
  | succ k ih =>
      change (em >>> k).mantissa / 2 = _
      rw [ih, Nat.div_div_eq_div_mul, Nat.pow_succ]

theorem mantissa_ofMantissaAndAccuracy (m : Nat) (accuracy : Accuracy) :
    (ExtendedMantissa.ofMantissaAndAccuracy m accuracy).mantissa = m := by
  rcases accuracy with _ | (_ | _ | _) <;> rfl

/-- Rounding goes down by not going up. -/
theorem le_roundedMantissa (em : ExtendedMantissa) : em.mantissa ≤ em.roundedMantissa := by
  rw [ExtendedMantissa.roundedMantissa]
  rcases em.accuracy with _ | (_ | _ | _)
  · exact Nat.le_refl _
  · exact Nat.le_refl _
  · exact Nat.le_add_right _ _
  · exact Nat.le_succ _

theorem log2_div_two_pow {m k : Nat} (hm : 0 < m) (hk : k ≤ m.log2) :
    0 < m / 2 ^ k ∧ (m / 2 ^ k).log2 = m.log2 - k := by
  have hlow : 2 ^ (m.log2 - k) ≤ m / 2 ^ k := by
    rw [Nat.le_div_iff_mul_le (Nat.two_pow_pos k), ← Nat.pow_add, Nat.sub_add_cancel hk]
    exact Nat.log2_self_le hm.ne'
  have hpos : 0 < m / 2 ^ k := Nat.lt_of_lt_of_le (Nat.two_pow_pos _) hlow
  refine ⟨hpos, (Nat.log2_eq_iff hpos.ne').mpr ⟨hlow, ?_⟩⟩
  have hexponent : m.log2 - k + 1 + k = m.log2 + 1 := by omega
  rw [Nat.div_lt_iff_lt_mul (Nat.two_pow_pos k), ← Nat.pow_add, hexponent]
  exact Nat.lt_log2_self

/-- No more digits are shifted out than there are, so one is left. -/
theorem fits_shiftToTargetExponent (spec : Format) {m : Nat} {e : Int} (accuracy : Accuracy)
    (hm : 0 < m) (he : spec.minExponent ≤ e) :
    Fits spec (shiftToTargetExponent spec m e accuracy).1.mantissa
      (shiftToTargetExponent spec m e accuracy).2 := by
  have hbits : spec.mantissaBits = 1 + spec.mantissaBitsWithoutImplicit := rfl
  simp only [shiftToTargetExponent, shiftToExponent, mantissa_shiftRight,
    mantissa_ofMantissaAndAccuracy, Format.targetExponent, totalExponent]
  generalize hk : (max ((m.log2 : Int) + 1 + e - spec.mantissaBits) spec.minExponent - e).toNat = k
  obtain ⟨hpos, hlog⟩ := log2_div_two_pow (k := k) hm (by omega)
  exact ⟨hpos, by omega, by omega⟩

private theorem fits_roundWithAccuracy (spec : Format) (s : Sign) {m : Nat} {e : Int}
    (accuracy : Accuracy) (hm : 0 < m) (he : spec.minExponent ≤ e) :
    ∃ m' e', ∃ hm' : 0 < m', roundWithAccuracy spec s m e accuracy = .finite s m' e' hm' ∧
      Fits spec m' e' := by
  have hfirst := fits_shiftToTargetExponent spec accuracy hm he
  rw [roundWithAccuracy]
  generalize shiftToTargetExponent spec m e accuracy = first at hfirst
  obtain ⟨em, e₁⟩ := first
  have hpos : 0 < em.roundedMantissa := Nat.lt_of_lt_of_le hfirst.pos (le_roundedMantissa em)
  have hsecond := fits_shiftToTargetExponent spec .exact hpos hfirst.le
  simp only
  generalize shiftToTargetExponent spec em.roundedMantissa e₁ .exact = second at hsecond
  obtain ⟨em₂, e₂⟩ := second
  rw [dif_neg hsecond.pos.ne']
  exact ⟨_, _, hsecond.pos, rfl, hsecond⟩

/-! ## Packing what was rounded -/

/-- A number with the sign `s` that is neither a zero nor NaN. -/
inductive Nonzero (s : Sign) : UnpackedFloat → Prop
  | infinity : Nonzero s (.infinity s)
  | finite (m : Nat) (e : Int) (hm : 0 < m) : Nonzero s (.finite s m e hm)

theorem Nonzero.ne_zero {s s' : Sign} {u : UnpackedFloat} (h : Nonzero s u) : u ≠ .zero s' := by
  cases h <;> simp

/-- Unless the exponent is full, and if one of the fields is not zero, the fields are those of a
number that is not zero. -/
theorem nonzero_packComponents (spec : Format) (s : Sign) {exponent : BitVec spec.exponentBits}
    {significand : BitVec spec.mantissaBitsWithoutImplicit}
    (hnumber : exponent ≠ -1#_ ∨ significand = 0#_) (hne : exponent ≠ 0#_ ∨ significand ≠ 0#_) :
    Nonzero s (unpack spec (packComponents spec s exponent significand)) := by
  simp only [unpack, unpackMantissa_packComponents, unpackExponent_packComponents,
    unpackSign_packComponents, Sign.ofBitVec_toBitVec]
  by_cases hfull : exponent = -1#_
  · rw [if_pos hfull, if_pos (hnumber.resolve_left (not_not.mpr hfull))]
    exact .infinity
  · rw [if_neg hfull]
    by_cases hzero : exponent = 0#_
    · rw [if_pos hzero, dif_neg (hne.resolve_left (not_not.mpr hzero))]
      exact .finite _ _ _
    · rw [if_neg hzero]
      exact .finite _ _ _

theorem zero_ne_full (spec : Format) : (0#_ : BitVec spec.exponentBits) ≠ -1#_ := by
  have hpow : 2 ≤ 2 ^ spec.exponentBits := Nat.le_self_pow spec.he.ne' 2
  rw [Ne, eq_full_iff, BitVec.toNat_zero]
  omega

theorem ofNat_ne_zero {w n : Nat} (hn : 0 < n) (hlt : n < 2 ^ w) : BitVec.ofNat w n ≠ 0#w := by
  rw [Ne, eq_zero_iff, BitVec.toNat_ofNat, Nat.mod_eq_of_lt hlt]
  omega

theorem nonzero_packedInfinity (spec : Format) (s : Sign) :
    Nonzero s (unpack spec (packedInfinity spec s)) :=
  nonzero_packComponents spec s (.inr rfl) (.inl (zero_ne_full spec).symm)

/-- A number that fits is not packed into a zero.  One that is too large becomes an infinity. -/
theorem nonzero_pack (spec : Format) (s : Sign) {m : Nat} {e : Int} (hm : 0 < m)
    (hfits : Fits spec m e) : Nonzero s (unpack spec (pack spec (.finite s m e hm))) := by
  have hbits : spec.mantissaBits = 1 + spec.mantissaBitsWithoutImplicit := rfl
  have hshort := hfits.short
  have hle := hfits.le
  rw [FloatUnit.minExponent_eq] at hle
  simp only [pack]
  generalize hk : (e + (spec.exponentBias : Int) + spec.mantissaBitsWithoutImplicit).toNat = k
  by_cases hlarge : 2 ^ spec.exponentBits ≤ k + 1
  · rw [if_pos hlarge]
    exact nonzero_packedInfinity spec s
  · rw [if_neg hlarge]
    have hpos : 0 < k := by omega
    split
    · -- a normal number
      refine nonzero_packComponents spec s (.inl ?_) (.inl (ofNat_ne_zero hpos (by omega)))
      rw [Ne, eq_full_iff, BitVec.toNat_ofNat, Nat.mod_eq_of_lt (by omega)]
      omega
    · -- a subnormal number
      have hlt : m < 2 ^ spec.mantissaBitsWithoutImplicit := (Nat.log2_lt hm.ne').mp (by omega)
      exact nonzero_packComponents spec s (.inl (zero_ne_full spec)) (.inr (ofNat_ne_zero hm hlt))

theorem nonzero_roundWithAccuracy (spec : Format) (s : Sign) {m : Nat} {e : Int}
    (accuracy : Accuracy) (hm : 0 < m) (he : spec.minExponent ≤ e) :
    Nonzero s (unpack spec (pack spec (roundWithAccuracy spec s m e accuracy))) := by
  obtain ⟨m', e', hm', hround, hfits⟩ := fits_roundWithAccuracy spec s accuracy hm he
  rw [hround]
  exact nonzero_pack spec s hm' hfits

theorem nonzero_round (spec : Format) (s : Sign) {m : Nat} {e : Int} (hm : 0 < m)
    (he : spec.minExponent ≤ e) :
    Nonzero s (unpack spec (pack spec (UnpackedFloat.round spec s m e))) := by
  simp only [UnpackedFloat.round, decreaseExponent]
  refine nonzero_roundWithAccuracy spec s .exact ?_ ?_
  · rw [Nat.shiftLeft_eq]
    exact Nat.mul_pos hm (Nat.two_pow_pos _)
  · simp only [Format.targetExponent]
    omega

/-! ## Sums -/

theorem add_notANumber (spec : Format) (u : UnpackedFloat) :
    add spec u .notANumber = .notANumber := by
  cases u <;> rfl

theorem mul_notANumber (spec : Format) (u : UnpackedFloat) :
    mul spec u .notANumber = .notANumber := by
  cases u <;> rfl

/-- A zero of either sign adds nothing, except to the negative zero. -/
theorem add_zero (spec : Format) {u : UnpackedFloat} (hu : u ≠ .zero .negative) (s : Sign) :
    add spec u (.zero s) = u := by
  cases u with
  | infinity | notANumber | finite => rfl
  | zero s' =>
      cases s' with
      | negative => exact absurd rfl hu
      | positive => cases s <;> rfl

/-- A significand of either sign that is not zero stays so, too. -/
theorem nonzero_normalize (spec : Format) (zeroSign : Sign) {m : Int} {e : Int} (hm : m ≠ 0)
    (he : spec.minExponent ≤ e) :
    ∃ s, Nonzero s (unpack spec (pack spec (UnpackedFloat.normalize spec m e zeroSign))) := by
  rw [UnpackedFloat.normalize]
  rcases lt_or_gt_of_ne hm with hneg | hpos
  · rw [Int.compare_eq_lt.mpr hneg]
    exact ⟨.negative, nonzero_round spec .negative (by omega) he⟩
  · rw [Int.compare_eq_gt.mpr hpos]
    exact ⟨.positive, nonzero_round spec .positive (by omega) he⟩

/-- A significand that is rounded and packed is the negative zero in no case. -/
theorem normalize_ne_zero_negative (spec : Format) (m : Int) {e : Int}
    (he : spec.minExponent ≤ e) :
    unpack spec (pack spec (UnpackedFloat.normalize spec m e .positive)) ≠ .zero .negative := by
  by_cases hm : m = 0
  · rw [hm]
    change unpack spec (packedZero spec .positive) ≠ _
    rw [unpack_packedZero]
    simp
  · obtain ⟨s, hnonzero⟩ := nonzero_normalize spec .positive hm he
    exact hnonzero.ne_zero

/-- Neither NaN nor an infinity. -/
def IsFinite : UnpackedFloat → Prop
  | .zero _ | .finite .. => True
  | _ => False

/-- A sum with NaN or an infinity is one of them again. -/
theorem add_of_not_isFinite (spec : Format) {u v : UnpackedFloat}
    (h : ¬ (IsFinite u ∧ IsFinite v)) :
    add spec u v = .notANumber ∨ ∃ s, add spec u v = .infinity s := by
  cases u with
  | notANumber => exact .inl rfl
  | infinity s =>
      cases v with
      | notANumber => exact .inl rfl
      | infinity s' =>
          rw [add]
          split
          · exact .inr ⟨s, rfl⟩
          · exact .inl rfl
      | zero | finite => exact .inr ⟨s, rfl⟩
  | zero | finite =>
      cases v with
      | notANumber => exact .inl rfl
      | infinity s' => exact .inr ⟨s', rfl⟩
      | zero | finite => exact absurd ⟨trivial, trivial⟩ h

theorem isFinite_of_add {spec : Format} {u v : UnpackedFloat} {s : Sign}
    (h : unpack spec (pack spec (add spec u v)) = .zero s) : IsFinite u ∧ IsFinite v := by
  by_contra hspecial
  rcases add_of_not_isFinite spec hspecial with hsum | ⟨s', hsum⟩
  · rw [hsum, pack, unpack_packedNaN] at h
    cases h
  · rw [hsum, pack] at h
    exact (nonzero_packedInfinity spec s').ne_zero h

/-- What was unpacked is packed without a loss. -/
theorem unpack_pack_of_unpack {spec : Format} (hwide : 2 ≤ spec.exponentBits)
    {b : BitVec spec.numBits} (hb : spec.Valid b) {u : UnpackedFloat} (hu : unpack spec b = u) :
    unpack spec (pack spec u) = u := by
  rw [← hu, pack_unpack_of_valid hb hwide]

/-- A sum is the negative zero only if both operands are. -/
theorem eq_zero_negative_of_add {spec : Format} (hwide : 2 ≤ spec.exponentBits)
    {b b' : BitVec spec.numBits} (hb : spec.Valid b) (hb' : spec.Valid b')
    (h : unpack spec (pack spec (add spec (unpack spec b) (unpack spec b'))) = .zero .negative) :
    unpack spec b = .zero .negative ∧ unpack spec b' = .zero .negative := by
  obtain ⟨hfinite, hfinite'⟩ := isFinite_of_add h
  cases hu : unpack spec b with
  | notANumber | infinity => rw [hu] at hfinite; exact hfinite.elim
  | zero s =>
      cases hv : unpack spec b' with
      | notANumber | infinity => rw [hv] at hfinite'; exact hfinite'.elim
      | zero s' =>
          rw [hu, hv] at h
          cases s with
          | positive =>
              -- A positive zero and any zero make the positive one.
              have hpositive : add spec (.zero .positive) (.zero s') = .zero .positive := by
                cases s' <;> rfl
              rw [hpositive, pack, unpack_packedZero] at h
              cases h
          | negative =>
              cases s' with
              | positive => cases unpack_packedZero.symm.trans h
              | negative => exact ⟨rfl, rfl⟩
      | finite =>
          rw [hu, hv] at h
          -- A zero leaves the other number as it is, and that one is not zero.
          cases (unpack_pack_of_unpack hwide hb' hv).symm.trans h
  | finite s m e hm =>
      cases hv : unpack spec b' with
      | notANumber | infinity => rw [hv] at hfinite'; exact hfinite'.elim
      | zero =>
          rw [hu, hv] at h
          cases (unpack_pack_of_unpack hwide hb hu).symm.trans h
      | finite s' m' e' hm' =>
          -- Two numbers that cancel make the positive zero, and the sum of others is none.
          have he := (fits_of_unpack hwide hu).1.le
          have he' := (fits_of_unpack hwide hv).1.le
          rw [hu, hv] at h
          exact absurd h (normalize_ne_zero_negative spec _ (le_min he he'))

/-! ## Quotients -/

/-- One divided by a positive finite number is positive. -/
theorem nonzero_one_div {spec : Format} (hlong : 2 ≤ spec.mantissaBitsWithoutImplicit)
    (hwide : 2 ≤ spec.exponentBits) {b : BitVec spec.numBits} {m : Nat} {e : Int} {hm : 0 < m}
    (h : unpack spec b = .finite .positive m e hm) :
    Nonzero .positive
      (unpack spec (pack spec (div spec (FloatUnit.unpackedOne spec) (unpack spec b)))) := by
  obtain ⟨hfits, hsmall⟩ := fits_of_unpack hwide h
  have hshort := hfits.short
  have hle := hfits.le
  have hbits : spec.mantissaBits = 1 + spec.mantissaBitsWithoutImplicit := rfl
  have hlog : (2 ^ spec.mantissaBitsWithoutImplicit).log2 = spec.mantissaBitsWithoutImplicit :=
    Nat.log2_two_pow
  rw [h]
  change Nonzero .positive (unpack spec (pack spec (roundWithAccuracy spec .positive _ _ _)))
  simp only [Format.targetExponent, totalExponent, hlog, Nat.shiftLeft_eq]
  -- The quotient has a digit before the point, since the divisor is below the shifted one.
  refine nonzero_roundWithAccuracy spec .positive _ ?_ (by omega)
  refine Nat.div_pos ?_ hm
  rw [← Nat.pow_add]
  refine Nat.le_trans (Nat.le_of_lt Nat.lt_log2_self) (Nat.pow_le_pow_right (by decide) ?_)
  omega

end PNorm.Packed
