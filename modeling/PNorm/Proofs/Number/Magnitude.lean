import PNorm.Proofs.Number.Special

/-!
# Products of numbers that are not below one

The exact product of two numbers seldom fits into their format, and then it is rounded.
If neither factor is below one, that does little harm (`productBounds_mul`):

* the product is not below either factor, because a factor fits into the format and
  rounding never passes a number that does;
* it is above the exact product by at most one unit of the last place.

Infinity counts as `limit`, the power of two that would come next in the format.  So both
hold of a product that is too large as well, and nothing has to be told apart.

The significand of a number that is not below one has all its digits.  Rounding the
product of two such significands first cuts off all but as many digits, then goes up by
one or not, and cuts off one more digit if that gave a carry.
-/

open Float.Model (Format UnpackedFloat totalExponent)
open Float.Model.UnpackedFloat

namespace PNorm

/-- How far a value is from zero.  NaN counts as zero, and infinity as `limit`. -/
def ExactValue.magnitude (limit : ℚ) : ExactValue → ℚ
  | .nan => 0
  | .infinite _ => limit
  | .finite _ steps depth => steps / 2 ^ depth

theorem ExactValue.magnitude_of_rational? (limit : ℚ) {v : ExactValue} {q : ℚ}
    (h : v.rational? = some q) : v.magnitude limit = |q| := by
  cases v with
  | nan => cases h
  | infinite negative => cases h
  | finite negative steps depth =>
      have hnonneg : (0 : ℚ) ≤ steps / 2 ^ depth := by positivity
      cases h
      cases negative <;> simp [magnitude, abs_of_nonneg hnonneg]

theorem ExactValue.one_le_magnitude (limit : ℚ) {v : ExactValue} (h : v.isAtLeastOne = true) :
    1 ≤ v.magnitude limit := by
  obtain ⟨q, hq, hone⟩ := v.isAtLeastOne_iff.mp h
  rw [magnitude_of_rational? limit hq]
  exact hone.trans (le_abs_self q)

/-- The measure `w` of a product whose factors have the measures `a` and `b`: it is not below either
of them, and above their product by at most the factor `slack`. -/
structure ProductBounds {β : Type} [Mul β] [LE β] (slack a b w : β) : Prop where
  left : a ≤ w
  right : b ≤ w
  upper : w ≤ a * b * slack

namespace Packed

/-- The number that a significand and an exponent stand for. -/
def scaled (m : Nat) (e : Int) : ℚ :=
  m * 2 ^ e

theorem two_zpow_pos (e : Int) : (0 : ℚ) < 2 ^ e :=
  zpow_pos two_pos e

theorem scaled_nonneg (m : Nat) (e : Int) : 0 ≤ scaled m e :=
  mul_nonneg (Nat.cast_nonneg m) (two_zpow_pos e).le

theorem scaled_le_scaled_iff {m m' : Nat} (e : Int) : scaled m e ≤ scaled m' e ↔ m ≤ m' := by
  rw [scaled, scaled, mul_le_mul_iff_left₀ (two_zpow_pos e), Nat.cast_le]

/-- Digits can be moved from the exponent into the significand. -/
theorem scaled_add (m k : Nat) (e : Int) : scaled m (e + k) = scaled (m * 2 ^ k) e := by
  rw [scaled, scaled, zpow_add₀ two_ne_zero, zpow_natCast]
  push_cast
  ring

/-- The significand of a power of two has one digit that is not zero. -/
theorem scaled_two_pow (p : Nat) (k : Int) : scaled (2 ^ p) (k - p) = 2 ^ k := by
  rw [scaled, zpow_sub₀ two_ne_zero, zpow_natCast, Nat.cast_pow, Nat.cast_ofNat,
    mul_div_cancel₀ _ (pow_ne_zero _ two_ne_zero)]

theorem two_zpow_le_scaled {m : Nat} (hm : 0 < m) (e : Int) : 2 ^ (m.log2 + e) ≤ scaled m e := by
  rw [zpow_add₀ two_ne_zero, zpow_natCast, scaled, mul_le_mul_iff_left₀ (two_zpow_pos e)]
  exact_mod_cast Nat.log2_self_le hm.ne'

theorem scaled_lt_two_zpow (m : Nat) (e : Int) : scaled m e < 2 ^ (m.log2 + 1 + e) := by
  have hcast : ((m.log2 : Int) + 1) = ((m.log2 + 1 : Nat) : Int) := by push_cast; rfl
  rw [zpow_add₀ two_ne_zero, hcast, zpow_natCast, scaled, mul_lt_mul_iff_left₀ (two_zpow_pos e)]
  exact_mod_cast Nat.lt_log2_self

/-- The first digit decides how a number compares with a power of two. -/
theorem two_zpow_le_scaled_iff {m : Nat} (hm : 0 < m) (e k : Int) :
    2 ^ k ≤ scaled m e ↔ k ≤ m.log2 + e := by
  constructor
  · intro hle
    have hlt := hle.trans_lt (scaled_lt_two_zpow m e)
    rw [zpow_lt_zpow_iff_right₀ one_lt_two] at hlt
    omega
  · intro hle
    exact (zpow_le_zpow_right₀ one_le_two hle).trans (two_zpow_le_scaled hm e)

/-! ## Cutting digits off -/

/-- Cutting digits off makes a number smaller. -/
theorem scaled_div_le (m k : Nat) (e : Int) : scaled (m / 2 ^ k) (e + k) ≤ scaled m e := by
  rw [scaled_add, scaled_le_scaled_iff]
  exact Nat.div_mul_le_self m (2 ^ k)

/-- It does not pass a number that has no more digits than are kept. -/
theorem le_scaled_div {m m₀ k : Nat} {e e₀ : Int} (hm : 0 < m) (hm₀ : m₀.log2 + k ≤ m.log2)
    (h : scaled m₀ e₀ ≤ scaled m e) : scaled m₀ e₀ ≤ scaled (m / 2 ^ k) (e + k) := by
  obtain ⟨hpos, hlog⟩ := log2_div_two_pow (k := k) hm (by omega)
  rcases le_or_gt (e + k) e₀ with hle | hlt
  · -- all its digits are among those that are kept
    obtain ⟨j, rfl⟩ := Int.le.dest hle
    rw [scaled_add] at h ⊢
    rw [scaled_add, scaled_le_scaled_iff] at h
    rwa [scaled_le_scaled_iff, Nat.le_div_iff_mul_le (Nat.two_pow_pos k)]
  · -- its first digit is behind that of the number
    have hexponent : (m₀.log2 : Int) + 1 + e₀ ≤ (m / 2 ^ k).log2 + (e + k) := by omega
    calc scaled m₀ e₀ ≤ 2 ^ (m₀.log2 + 1 + e₀) := (scaled_lt_two_zpow m₀ e₀).le
      _ ≤ 2 ^ ((m / 2 ^ k).log2 + (e + k)) := zpow_le_zpow_right₀ one_le_two hexponent
      _ ≤ scaled (m / 2 ^ k) (e + k) := two_zpow_le_scaled hpos _

/-! ## Rounding -/

/-- A number of the format whose significand has all its digits. -/
structure Normal (spec : Format) (m : Nat) (e : Int) : Prop where
  full : m.log2 = spec.mantissaBitsWithoutImplicit
  le : spec.minExponent ≤ e

/-- All digits but as many as the format has are shifted out. -/
theorem shiftToTargetExponent_of_long (spec : Format) {m : Nat} {e : Int}
    (hlong : spec.mantissaBitsWithoutImplicit ≤ m.log2)
    (hmin : spec.minExponent + spec.mantissaBitsWithoutImplicit ≤ m.log2 + e)
    (accuracy : Accuracy) :
    ∃ k, k + spec.mantissaBitsWithoutImplicit = m.log2 ∧
      (shiftToTargetExponent spec m e accuracy).1.mantissa = m / 2 ^ k ∧
      (shiftToTargetExponent spec m e accuracy).2 = e + k := by
  have hbits : spec.mantissaBits = 1 + spec.mantissaBitsWithoutImplicit := rfl
  refine ⟨m.log2 - spec.mantissaBitsWithoutImplicit, by omega, ?_⟩
  have hamount : (spec.targetExponent (totalExponent m e) - e).toNat =
      m.log2 - spec.mantissaBitsWithoutImplicit := by
    simp only [Format.targetExponent, totalExponent]
    omega
  simp only [shiftToTargetExponent, shiftToExponent, hamount, mantissa_shiftRight,
    mantissa_ofMantissaAndAccuracy, and_self]

private theorem roundedMantissa_le (em : ExtendedMantissa) :
    em.roundedMantissa ≤ em.mantissa + 1 := by
  rw [ExtendedMantissa.roundedMantissa]
  rcases em.accuracy with _ | (_ | _ | _)
  · exact Nat.le_succ _
  · exact Nat.le_succ _
  · exact Nat.add_le_add_left (Nat.le_of_lt_succ (Nat.mod_lt _ two_pos)) _
  · exact Nat.le_refl _

/-- Going up by one is little for a number with all its digits. -/
theorem scaled_succ_le {spec : Format} {m : Nat} (hm : 0 < m)
    (hfull : m.log2 = spec.mantissaBitsWithoutImplicit) (e : Int) :
    scaled (m + 1) e ≤ scaled m e * (1 + 1 / 2 ^ spec.mantissaBitsWithoutImplicit) := by
  have hpow : (0 : ℚ) < 2 ^ spec.mantissaBitsWithoutImplicit := pow_pos two_pos _
  have hle : (2 : ℚ) ^ spec.mantissaBitsWithoutImplicit ≤ m := by
    exact_mod_cast hfull ▸ Nat.log2_self_le hm.ne'
  have hone : (1 : ℚ) ≤ m * (1 / 2 ^ spec.mantissaBitsWithoutImplicit) := by
    rw [mul_one_div, one_le_div hpow]
    exact hle
  have hsucc : ((m + 1 : Nat) : ℚ) ≤ m * (1 + 1 / 2 ^ spec.mantissaBitsWithoutImplicit) := by
    push_cast
    linarith
  calc scaled (m + 1) e ≤ m * (1 + 1 / 2 ^ spec.mantissaBitsWithoutImplicit) * 2 ^ e :=
        mul_le_mul_of_nonneg_right hsucc (two_zpow_pos e).le
    _ = scaled m e * (1 + 1 / 2 ^ spec.mantissaBitsWithoutImplicit) := by rw [scaled]; ring

/-- What a number with enough digits may be rounded to. -/
structure IsRounding (spec : Format) (m : Nat) (e : Int) (m' : Nat) (e' : Int) : Prop where
  normal : Normal spec m' e'
  lower : ∀ m₀ e₀, m₀.log2 ≤ spec.mantissaBitsWithoutImplicit → scaled m₀ e₀ ≤ scaled m e →
    scaled m₀ e₀ ≤ scaled m' e'
  upper : scaled m' e' ≤ scaled m e * (1 + 1 / 2 ^ spec.mantissaBitsWithoutImplicit)

/-- What is kept of the digits goes up by one or not, and a carry costs one more digit. -/
theorem isRounding_of_stages {spec : Format} {m r k c : Nat} {e : Int} (hm : 0 < m)
    (hmin : spec.minExponent + spec.mantissaBitsWithoutImplicit ≤ m.log2 + e)
    (hk : k + spec.mantissaBitsWithoutImplicit = m.log2) (hlow : m / 2 ^ k ≤ r)
    (hhigh : r ≤ m / 2 ^ k + 1) (hc : c + spec.mantissaBitsWithoutImplicit = r.log2) :
    IsRounding spec m e (r / 2 ^ c) (e + k + c) := by
  obtain ⟨hpos, hfull⟩ := log2_div_two_pow (k := k) hm (by omega)
  have hrpos : 0 < r := Nat.lt_of_lt_of_le hpos hlow
  obtain ⟨-, hcfull⟩ := log2_div_two_pow (k := c) hrpos (by omega)
  refine ⟨⟨by omega, by omega⟩, ?_, ?_⟩
  · intro m₀ e₀ hm₀ hle
    have hfirst : scaled m₀ e₀ ≤ scaled r (e + k) := by
      calc scaled m₀ e₀ ≤ scaled (m / 2 ^ k) (e + k) := le_scaled_div hm (by omega) hle
        _ ≤ scaled r (e + k) := (scaled_le_scaled_iff (e + k)).mpr hlow
    exact le_scaled_div hrpos (by omega) hfirst
  · calc scaled (r / 2 ^ c) (e + k + c) ≤ scaled r (e + k) := scaled_div_le r c (e + k)
      _ ≤ scaled (m / 2 ^ k + 1) (e + k) := (scaled_le_scaled_iff (e + k)).mpr hhigh
      _ ≤ scaled (m / 2 ^ k) (e + k) * (1 + 1 / 2 ^ spec.mantissaBitsWithoutImplicit) :=
        scaled_succ_le hpos (by omega) (e + k)
      _ ≤ scaled m e * (1 + 1 / 2 ^ spec.mantissaBitsWithoutImplicit) :=
        mul_le_mul_of_nonneg_right (scaled_div_le m k e) (by positivity)

theorem isRounding_roundWithAccuracy (spec : Format) (s : Sign) {m : Nat} {e : Int} (hm : 0 < m)
    (hlong : spec.mantissaBitsWithoutImplicit ≤ m.log2)
    (hmin : spec.minExponent + spec.mantissaBitsWithoutImplicit ≤ m.log2 + e) :
    ∃ m' e', ∃ hm' : 0 < m', roundWithAccuracy spec s m e .exact = .finite s m' e' hm' ∧
      IsRounding spec m e m' e' := by
  obtain ⟨k, hk, hkept, hexponent⟩ := shiftToTargetExponent_of_long spec hlong hmin .exact
  obtain ⟨hpos, hfull⟩ := log2_div_two_pow (k := k) hm (by omega)
  rw [roundWithAccuracy]
  generalize shiftToTargetExponent spec m e .exact = first at hkept hexponent
  obtain ⟨em, e₁⟩ := first
  simp only at hkept hexponent ⊢
  have hlow := le_roundedMantissa em
  have hhigh := roundedMantissa_le em
  rw [hkept] at hlow hhigh
  rw [hexponent]
  generalize em.roundedMantissa = r at hlow hhigh
  have hrlong : (m / 2 ^ k).log2 ≤ r.log2 := by
    rw [Nat.le_log2 (Nat.lt_of_lt_of_le hpos hlow).ne']
    exact (Nat.log2_self_le hpos.ne').trans hlow
  obtain ⟨c, hc, hcut, hlast⟩ := shiftToTargetExponent_of_long spec (m := r) (e := e + k)
    (by omega) (by omega) .exact
  generalize shiftToTargetExponent spec r (e + k) .exact = second at hcut hlast
  obtain ⟨em₂, e₂⟩ := second
  simp only at hcut hlast ⊢
  obtain ⟨hcpos, -⟩ := log2_div_two_pow (k := c) (Nat.lt_of_lt_of_le hpos hlow) (by omega)
  have hrounding := isRounding_of_stages hm hmin hk hlow hhigh hc
  rw [← hcut, ← hlast] at hrounding
  rw [← hcut] at hcpos
  rw [dif_neg hcpos.ne']
  exact ⟨_, _, hcpos, rfl, hrounding⟩

/-! ## Packing -/

/-- The power of two that comes next to the largest number of a format. -/
def limit (spec : Format) : ℚ :=
  2 ^ 2 ^ (spec.exponentBits - 1)

theorem limit_le_scaled_iff {spec : Format} {m : Nat} (hm : 0 < m) (e : Int) :
    limit spec ≤ scaled m e ↔ ((2 ^ (spec.exponentBits - 1) : Nat) : Int) ≤ m.log2 + e := by
  rw [← two_zpow_le_scaled_iff hm, zpow_natCast, limit]

/-- How far an unpacked number is from zero, where infinity counts as the limit. -/
def magnitude (spec : Format) (u : UnpackedFloat) : ℚ :=
  (value spec u).magnitude (limit spec)

theorem depth_format (spec : Format) : ((format spec).depth : Int) = -spec.minExponent := by
  have hbits : spec.mantissaBits = 1 + spec.mantissaBitsWithoutImplicit := rfl
  have hfraction : (format spec).fractionBits = spec.mantissaBitsWithoutImplicit := rfl
  have hexponent : (format spec).exponentBits = spec.exponentBits := rfl
  have hpow := Nat.two_pow_pos (spec.exponentBits - 1)
  have hm := spec.hm
  have hmin : spec.minExponent =
      3 - ((2 ^ (spec.exponentBits - 1) : Nat) : Int) - spec.mantissaBits := by
    rw [Format.minExponent]
    push_cast
    rfl
  rw [BinaryFormat.depth, hfraction, hexponent]
  omega

theorem magnitude_finite {spec : Format} (s : Sign) {m : Nat} {e : Int} (hm : 0 < m)
    (he : spec.minExponent ≤ e) : magnitude spec (.finite s m e hm) = scaled m e := by
  have hdepth := depth_format spec
  obtain ⟨k, rfl⟩ := Int.le.dest he
  have hk : (spec.minExponent + k - spec.minExponent).toNat = k := by omega
  have hmin : spec.minExponent = -((format spec).depth : Int) := by omega
  rw [magnitude, value, ExactValue.magnitude, hk, scaled_add, hmin, scaled, zpow_neg, zpow_natCast,
    div_eq_mul_inv]

theorem exponent_eq (spec : Format) :
    (2 ^ spec.exponentBits : Nat) = 2 ^ (spec.exponentBits - 1) + spec.exponentBias + 1 := by
  have hpow := Nat.two_pow_pos (spec.exponentBits - 1)
  have htwice : 2 * 2 ^ (spec.exponentBits - 1) = 2 ^ spec.exponentBits := by
    rw [← Nat.pow_succ', Nat.succ_eq_add_one, Nat.sub_add_cancel spec.he]
  rw [Format.exponentBias]
  omega

theorem unpack_packedInfinity (spec : Format) (s : Sign) :
    unpack spec (packedInfinity spec s) = .infinity s := by
  simp [unpack, packedInfinity]

/-- A number with all its digits is packed without a loss, unless it is too large. -/
theorem unpack_pack_normal {spec : Format} (s : Sign) {m : Nat} {e : Int} (hm : 0 < m)
    (h : Normal spec m e) :
    unpack spec (pack spec (.finite s m e hm)) =
      if limit spec ≤ scaled m e then .infinity s else .finite s m e hm := by
  have hbits : spec.mantissaBits = 1 + spec.mantissaBitsWithoutImplicit := rfl
  have hexponent := exponent_eq spec
  have hmin := FloatUnit.minExponent_eq spec
  have hfull := h.full
  have hle := h.le
  simp only [limit_le_scaled_iff hm, pack]
  by_cases hlarge : ((2 ^ (spec.exponentBits - 1) : Nat) : Int) ≤ m.log2 + e
  · rw [if_pos hlarge, if_pos (by omega), unpack_packedInfinity]
  · rw [if_neg hlarge, if_neg (by omega), if_pos (by omega)]
    -- It fits: the exponent field is neither full nor empty, and the leading digit is the hidden
    -- one.
    generalize hk : (e + (spec.exponentBias : Int) + spec.mantissaBitsWithoutImplicit).toNat = k
    have hlow : 2 ^ spec.mantissaBitsWithoutImplicit ≤ m := hfull ▸ Nat.log2_self_le hm.ne'
    have hhigh : m < 2 * 2 ^ spec.mantissaBitsWithoutImplicit := by
      rw [← Nat.pow_succ', ← hfull]
      exact Nat.lt_log2_self
    have hfield : (BitVec.ofNat spec.exponentBits k).toNat = k := by
      rw [BitVec.toNat_ofNat, Nat.mod_eq_of_lt (by omega)]
    have hnotFull : BitVec.ofNat spec.exponentBits k ≠ -1#_ := by
      rw [Ne, eq_full_iff, hfield]
      omega
    have hnotZero : BitVec.ofNat spec.exponentBits k ≠ 0#_ := ofNat_ne_zero (by omega) (by omega)
    have hdigits : (1#1 ++ BitVec.ofNat spec.mantissaBitsWithoutImplicit m).toNat = m := by
      rw [FloatUnit.toNat_one_append, BitVec.toNat_ofNat, Nat.mod_eq_sub_mod hlow,
        Nat.mod_eq_of_lt (by omega)]
      omega
    simp only [unpack, unpackMantissa_packComponents, unpackExponent_packComponents,
      unpackSign_packComponents, Sign.ofBitVec_toBitVec, if_neg hnotFull, if_neg hnotZero, hfield,
      hdigits, UnpackedFloat.finite.injEq, true_and]
    omega

private theorem magnitude_pack_normal {spec : Format} (s : Sign) {m : Nat} {e : Int} (hm : 0 < m)
    (h : Normal spec m e) :
    magnitude spec (unpack spec (pack spec (.finite s m e hm))) =
      min (scaled m e) (limit spec) := by
  rw [unpack_pack_normal s hm h]
  by_cases hlarge : limit spec ≤ scaled m e
  · rw [if_pos hlarge, min_eq_right hlarge]
    rfl
  · rw [if_neg hlarge, magnitude_finite s hm h.le, min_eq_left (le_of_not_ge hlarge)]

/-! ## Numbers that are not below one -/

/-- The number one has room below itself. -/
theorem minExponent_le {spec : Format} (hwide : 2 ≤ spec.exponentBits) :
    spec.minExponent + spec.mantissaBitsWithoutImplicit ≤ 0 := by
  have hmin := FloatUnit.minExponent_eq spec
  have hhalf : 2 ≤ 2 ^ (spec.exponentBits - 1) := Nat.le_self_pow (by omega) 2
  have hbias : spec.exponentBias = 2 ^ (spec.exponentBits - 1) - 1 := rfl
  omega

/-- An infinity, or a number with all its digits, that is not below one. -/
inductive AtLeastOne (spec : Format) : UnpackedFloat → Prop
  | infinity (s : Sign) : AtLeastOne spec (.infinity s)
  | finite (s : Sign) {m : Nat} {e : Int} (hm : 0 < m) (hnormal : Normal spec m e)
      (hone : 0 ≤ m.log2 + e) (hlimit : scaled m e < limit spec) :
      AtLeastOne spec (.finite s m e hm)

theorem atLeastOne_of_unpack {spec : Format} (hwide : 2 ≤ spec.exponentBits)
    {b : BitVec spec.numBits} (h : 1 ≤ magnitude spec (unpack spec b)) :
    AtLeastOne spec (unpack spec b) := by
  have hfields := fields_unpack spec b
  have hlt := (unpackMantissa b).isLt
  have hexponent := exponent_eq spec
  have hmin := FloatUnit.minExponent_eq spec
  have hroom := minExponent_le hwide
  have hone : ∀ {s m e} {hm : 0 < m}, spec.minExponent ≤ e →
      1 ≤ magnitude spec (.finite s m e hm) → 0 ≤ m.log2 + e := by
    intro s m e hm he hmagnitude
    rwa [magnitude_finite s hm he, ← zpow_zero 2, two_zpow_le_scaled_iff hm] at hmagnitude
  generalize unpack spec b = u at hfields h
  cases hfields with
  | infinity => exact .infinity _
  | notANumber => exact absurd h (not_le.mpr one_pos)
  | zero =>
      simp only [magnitude, value, ExactValue.magnitude, Nat.cast_zero, zero_div] at h
      exact absurd h (not_le.mpr one_pos)
  | subnormal hexponent hsignificand =>
      have hlog := (Nat.log2_lt hsignificand.ne').mpr hlt
      have := hone le_rfl h
      omega
  | normal hpos hfull hm hsignificand he =>
      have hlog : spec.mantissaBitsWithoutImplicit = _ :=
        (FloatUnit.log2_of_normal (unpackMantissa b)).symm
      rw [← hsignificand] at hlog
      refine .finite _ hm ⟨hlog.symm, by omega⟩ (hone (by omega) h) (lt_of_not_ge ?_)
      rw [limit_le_scaled_iff hm]
      omega

theorem AtLeastOne.one_le {spec : Format} {u : UnpackedFloat} (h : AtLeastOne spec u) :
    1 ≤ magnitude spec u := by
  cases h with
  | infinity s => exact one_le_pow₀ one_le_two
  | finite s hm hnormal hone hlimit =>
      rwa [magnitude_finite s hm hnormal.le, ← zpow_zero 2, two_zpow_le_scaled_iff hm]

theorem AtLeastOne.le_limit {spec : Format} {u : UnpackedFloat} (h : AtLeastOne spec u) :
    magnitude spec u ≤ limit spec := by
  cases h with
  | infinity s => exact le_rfl
  | finite s hm hnormal hone hlimit =>
      rw [magnitude_finite s hm hnormal.le]
      exact hlimit.le

/-- Only an infinity counts as the limit. -/
theorem AtLeastOne.eq_infinity {spec : Format} {u : UnpackedFloat} (h : AtLeastOne spec u)
    (hlarge : limit spec ≤ magnitude spec u) : ∃ s, u = .infinity s := by
  cases h with
  | infinity s => exact ⟨s, rfl⟩
  | finite s hm hnormal hone hlimit =>
      rw [magnitude_finite s hm hnormal.le] at hlarge
      exact absurd hlarge (not_le.mpr hlimit)

/-! ## Products -/

/-- A product with an infinity is infinite. -/
theorem productBounds_limit {spec : Format} {u v : UnpackedFloat} (hu : AtLeastOne spec u)
    (hv : AtLeastOne spec v) {slack : ℚ} (hslack : 1 ≤ slack)
    (hinfinite : limit spec = magnitude spec u ∨ limit spec = magnitude spec v) :
    ProductBounds slack (magnitude spec u) (magnitude spec v) (limit spec) := by
  have hone := hu.one_le
  have hone' := hv.one_le
  refine ⟨hu.le_limit, hv.le_limit, ?_⟩
  calc limit spec ≤ magnitude spec u * magnitude spec v := by
        rcases hinfinite with h | h
        · rw [h]
          exact le_mul_of_one_le_right (zero_le_one.trans hone) hone'
        · rw [h]
          exact le_mul_of_one_le_left (zero_le_one.trans hone') hone
    _ ≤ magnitude spec u * magnitude spec v * slack :=
        le_mul_of_one_le_right
          (mul_nonneg (zero_le_one.trans hone) (zero_le_one.trans hone')) hslack

private theorem scaled_mul_scaled (m m' : Nat) (e e' : Int) :
    scaled (m * m') (e + e') = scaled m e * scaled m' e' := by
  rw [scaled, scaled, scaled, zpow_add₀ two_ne_zero]
  push_cast
  ring

private theorem log2_add_log2_le {m m' : Nat} (hm : 0 < m) (hm' : 0 < m') :
    m.log2 + m'.log2 ≤ (m * m').log2 := by
  rw [Nat.le_log2 (Nat.mul_pos hm hm').ne', Nat.pow_add]
  exact Nat.mul_le_mul (Nat.log2_self_le hm.ne') (Nat.log2_self_le hm'.ne')

theorem productBounds_mul {spec : Format} {u v : UnpackedFloat} (hwide : 2 ≤ spec.exponentBits)
    (hu : AtLeastOne spec u) (hv : AtLeastOne spec v) :
    ProductBounds (1 + 1 / 2 ^ spec.mantissaBitsWithoutImplicit) (magnitude spec u)
      (magnitude spec v) (magnitude spec (unpack spec (pack spec (mul spec u v)))) := by
  have hslack : (1 : ℚ) ≤ 1 + 1 / 2 ^ spec.mantissaBitsWithoutImplicit :=
    le_add_of_nonneg_right (by positivity)
  have hinfinity : ∀ s, magnitude spec (unpack spec (pack spec (.infinity s))) = limit spec := by
    intro s
    rw [pack, unpack_packedInfinity]
    rfl
  have hone := hu.one_le
  have hone' := hv.one_le
  have hlimit := hu.le_limit
  have hlimit' := hv.le_limit
  cases hu with
  | infinity s =>
      -- One factor is infinite, and the product is infinite too.
      have hbounds := productBounds_limit (.infinity s) hv hslack (.inl rfl)
      cases hv with
      | infinity s' => rwa [mul, hinfinity]
      | finite s' => rwa [mul, hinfinity]
  | @finite s m e hm hnormal hpos hle =>
      cases hv with
      | infinity s' =>
          rw [mul, hinfinity]
          exact productBounds_limit (.finite s hm hnormal hpos hle) (.infinity s') hslack (.inr rfl)
      | @finite s' m' e' hm' hnormal' hpos' hle' =>
          -- Two finite factors, whose product is rounded once.
          have hlog := log2_add_log2_le hm hm'
          have hfull := hnormal.full
          have hfull' := hnormal'.full
          have hmin := minExponent_le hwide
          obtain ⟨m₁, e₁, hm₁, hround, hrounding⟩ :=
            isRounding_roundWithAccuracy spec (e := e + e') (s * s') (Nat.mul_pos hm hm')
              (by omega) (by omega)
          have hproduct := scaled_mul_scaled m m' e e'
          rw [magnitude_finite s hm hnormal.le] at hone hlimit ⊢
          rw [magnitude_finite s' hm' hnormal'.le] at hone' hlimit' ⊢
          rw [mul, hround, magnitude_pack_normal _ hm₁ hrounding.normal]
          refine ⟨le_min (hrounding.lower m e hfull.le ?_) hlimit,
            le_min (hrounding.lower m' e' hfull'.le ?_) hlimit', ?_⟩
          · rw [hproduct]
            exact le_mul_of_one_le_right (scaled_nonneg m e) hone'
          · rw [hproduct]
            exact le_mul_of_one_le_left (scaled_nonneg m' e') hone
          · rw [← hproduct]
            exact (min_le_left _ _).trans hrounding.upper

end Packed

namespace PackedArith

variable {α : Type} [FloatArith α] [PackedArith α]

/-- How far a number is from zero, where infinity counts as the power of two next to the largest
number. -/
def magnitude (x : α) : ℚ :=
  (FloatArith.exactValue x).magnitude (Packed.limit (spec α))

theorem magnitude_eq (x : α) : magnitude x = Packed.magnitude (spec α) (number x) := by
  rw [magnitude, exactValue_eq_value, Packed.magnitude]

/-- A product of numbers that are not below one. -/
theorem productBounds_mul {x y : α} (hx : 1 ≤ magnitude x) (hy : 1 ≤ magnitude y) :
    ProductBounds (1 + 1 / 2 ^ (spec α).mantissaBitsWithoutImplicit) (magnitude x) (magnitude y)
      (magnitude (x * y)) := by
  have hproduct : number (x * y) =
      unpack (spec α) (pack (spec α) (mul (spec α) (number x) (number y))) := by
    rw [number, bits_mul]
    rfl
  rw [magnitude_eq] at hx hy
  rw [magnitude_eq, magnitude_eq, magnitude_eq, hproduct]
  exact Packed.productBounds_mul wide (Packed.atLeastOne_of_unpack wide hx)
    (Packed.atLeastOne_of_unpack wide hy)

theorem magnitude_one : magnitude (Arith.one : α) = 1 := by
  have hwide : 2 ≤ (spec α).exponentBits := wide
  have hroom := Packed.minExponent_le hwide
  rw [magnitude_eq, number, unpack_one, FloatUnit.unpackedOne,
    Packed.magnitude_finite _ _ (by omega), ← Int.zero_sub, Packed.scaled_two_pow, zpow_zero]

theorem magnitude_of_infinite {x : α} {negative : Bool}
    (h : FloatArith.exactValue x = .infinite negative) :
    magnitude x = Packed.limit (spec α) := by
  rw [magnitude, h]
  rfl

/-- Only an infinity is as far from zero as the limit. -/
theorem infinite_of_limit_le {x : α} (h : Packed.limit (spec α) ≤ magnitude x) :
    ∃ negative, FloatArith.exactValue x = .infinite negative := by
  have hone : 1 ≤ magnitude x := (one_le_pow₀ one_le_two).trans h
  rw [magnitude_eq] at h hone
  obtain ⟨s, hs⟩ := (Packed.atLeastOne_of_unpack wide hone).eq_infinity h
  refine ⟨s == .negative, ?_⟩
  rw [exactValue_eq_value, number, hs, Packed.value]

end PackedArith

end PNorm
