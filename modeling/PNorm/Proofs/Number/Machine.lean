import PNorm.Number.Machine
import PNorm.Proofs.Number.Magnitude
import PNorm.Proofs.Number.Negated

/-!
# What a machine tells of its numbers

`PNorm.Number.Machine` tests and converts numbers by the operations of a machine, which
know significands and exponents and round what they compute.  Here their answers are
compared with the rational numbers that the numbers are.

* `lt_iff`: numbers are ordered like those rational numbers, subnormal numbers and both
  zeros included.
* `bits_ofNat_of_normal`: a natural number that is in the format is converted without a
  loss, however many digits it has.  So every whole number is got back from the natural
  number that it is (`ofNat_of_whole`).
* `beq_fract_iff`: the whole part of a number is in the format as well (`exists_floor`)
  and a difference is rounded to zero only if it is zero, so that what is behind the
  point tells whole numbers from all others.
* `convertsToWords_toWord?`: a number between the ends of the machine words becomes the
  word of its whole part, and what is beyond them becomes none.

All this is shown of formats, and `PackedMachine` says of a type of numbers that it works
like one.
-/

open Float.Model (Format UnpackedFloat totalExponent)
open Float.Model.UnpackedFloat

namespace PNorm

namespace Packed

/-! ## Order -/

/-- A significand with the exponent that rounding chooses for it. -/
structure Settled (spec : Format) (m : Nat) (e : Int) : Prop where
  short : m.log2 ≤ spec.mantissaBitsWithoutImplicit
  le : spec.minExponent ≤ e
  full : spec.minExponent < e → m.log2 = spec.mantissaBitsWithoutImplicit

theorem settled_iff {spec : Format} {m : Nat} {e : Int} :
    Settled spec m e ↔ spec.targetExponent (totalExponent m e) = e := by
  have hbits : spec.mantissaBits = 1 + spec.mantissaBitsWithoutImplicit := rfl
  rw [Format.targetExponent, totalExponent]
  constructor
  · rintro ⟨hshort, hle, hfull⟩
    omega
  · intro h
    exact ⟨by omega, by omega, by omega⟩

theorem Normal.settled {spec : Format} {m : Nat} {e : Int} (h : Normal spec m e) :
    Settled spec m e :=
  ⟨h.full.le, h.le, fun _ => h.full⟩

theorem normal_two_pow (spec : Format) {k : Int}
    (h : spec.minExponent ≤ k - spec.mantissaBitsWithoutImplicit) :
    Normal spec (2 ^ spec.mantissaBitsWithoutImplicit) (k - spec.mantissaBitsWithoutImplicit) :=
  ⟨Nat.log2_two_pow, h⟩

theorem scaled_lt_scaled_iff {m m' : Nat} (e : Int) : scaled m e < scaled m' e ↔ m < m' := by
  rw [← not_le, scaled_le_scaled_iff, not_le]

/-- The exponents decide, where they differ. -/
theorem scaled_lt_scaled {spec : Format} {m m' : Nat} {e e' : Int} (hm' : 0 < m')
    (h : Settled spec m e) (h' : Settled spec m' e') (hlt : e < e') :
    scaled m e < scaled m' e' := by
  have hshort := h.short
  have hfull := h'.full (h.le.trans_lt hlt)
  have hexponent : (m.log2 : Int) + 1 + e ≤ m'.log2 + e' := by omega
  calc scaled m e < 2 ^ (m.log2 + 1 + e) := scaled_lt_two_zpow m e
    _ ≤ 2 ^ (m'.log2 + e') := zpow_le_zpow_right₀ one_le_two hexponent
    _ ≤ scaled m' e' := two_zpow_le_scaled hm' e'

theorem compare_eq_lt_iff {spec : Format} {m m' : Nat} {e e' : Int} (hm : 0 < m) (hm' : 0 < m')
    (h : Settled spec m e) (h' : Settled spec m' e') :
    (compare e e').then (compare m m') = .lt ↔ scaled m e < scaled m' e' := by
  rw [Ordering.then_eq_lt, Int.compare_eq_lt, Int.compare_eq_eq, Nat.compare_eq_lt]
  rcases lt_trichotomy e e' with hlt | rfl | hgt
  · exact iff_of_true (.inl hlt) (scaled_lt_scaled hm' h h' hlt)
  · rw [scaled_lt_scaled_iff]
    simp
  · exact iff_of_false (by omega) (scaled_lt_scaled hm h' h hgt).not_gt

/-- A finite number of a format, with the rational number that it is. -/
inductive IsValue (spec : Format) : UnpackedFloat → ℚ → Prop
  | zero (s : Sign) : IsValue spec (.zero s) 0
  | positive {m : Nat} {e : Int} (hm : 0 < m) (h : Settled spec m e) :
      IsValue spec (.finite .positive m e hm) (scaled m e)
  | negative {m : Nat} {e : Int} (hm : 0 < m) (h : Settled spec m e) :
      IsValue spec (.finite .negative m e hm) (-scaled m e)

private theorem isValue_of_rational? {spec : Format} {b : BitVec spec.numBits} {q : ℚ}
    (h : (value spec (unpack spec b)).rational? = some q) : IsValue spec (unpack spec b) q := by
  have hcanonical := FloatUnit.canonical_unpack spec b
  generalize unpack spec b = u at h hcanonical
  cases u with
  | notANumber => cases h
  | infinity s => cases h
  | zero s =>
      have hq : q = 0 := by
        cases h
        simp
      rw [hq]
      exact .zero s
  | finite s m e hm =>
      have hsettled := settled_iff.mpr hcanonical
      have hsteps := magnitude_finite s hm hsettled.le
      rw [magnitude, value, ExactValue.magnitude] at hsteps
      rw [value, ExactValue.rational?, hsteps, Option.some.injEq] at h
      cases s with
      | positive =>
          obtain rfl : scaled m e = q := (one_mul _).symm.trans h
          exact .positive hm hsettled
      | negative =>
          obtain rfl : -scaled m e = q := (neg_one_mul _).symm.trans h
          exact .negative hm hsettled

theorem scaled_pos {m : Nat} (hm : 0 < m) (e : Int) : 0 < scaled m e :=
  mul_pos (Nat.cast_pos.mpr hm) (two_zpow_pos e)

/-- Numbers are compared as the rational numbers that they are. -/
theorem lt_iff {spec : Format} {u v : UnpackedFloat} {q r : ℚ} (hu : IsValue spec u q)
    (hv : IsValue spec v r) : u.lt v = true ↔ q < r := by
  rw [UnpackedFloat.lt, beq_iff_eq]
  cases hu with
  | zero s =>
      cases hv with
      | zero s' => exact iff_of_false nofun (lt_irrefl 0)
      | positive hm' h' => exact iff_of_true rfl (scaled_pos hm' _)
      | negative hm' h' => exact iff_of_false nofun (neg_neg_of_pos (scaled_pos hm' _)).not_gt
  | @positive m e hm h =>
      have hpos := scaled_pos hm e
      cases hv with
      | zero s' => exact iff_of_false nofun hpos.not_gt
      | @positive m' e' hm' h' =>
          rw [UnpackedFloat.compare, Option.some.injEq, compare_eq_lt_iff hm hm' h h']
      | @negative m' e' hm' h' =>
          exact iff_of_false nofun ((neg_neg_of_pos (scaled_pos hm' e')).trans hpos).not_gt
  | @negative m e hm h =>
      have hneg := neg_neg_of_pos (scaled_pos hm e)
      cases hv with
      | zero s' => exact iff_of_true rfl hneg
      | @positive m' e' hm' h' => exact iff_of_true rfl (hneg.trans (scaled_pos hm' e'))
      | @negative m' e' hm' h' =>
          rw [UnpackedFloat.compare, Option.some.injEq, Ordering.swap_then, Int.compare_swap,
            Nat.compare_swap, compare_eq_lt_iff hm' hm h' h, neg_lt_neg_iff]

/-- Both zeros are equal to zero, and nothing else is. -/
theorem beq_zero_iff {u : UnpackedFloat} (s : Sign) :
    u.beq (.zero s) = true ↔ ∃ s', u = .zero s' := by
  cases u with
  | zero s' => exact iff_of_true rfl ⟨s', rfl⟩
  | notANumber => exact iff_of_false nofun nofun
  | infinity s' => cases s' <;> exact iff_of_false nofun nofun
  | finite s' m e hm => cases s' <;> exact iff_of_false nofun nofun

/-! ## Whole numbers -/

theorem log2_add_eq_of_scaled_eq {m m' : Nat} {e e' : Int} (hm : 0 < m) (hm' : 0 < m')
    (h : scaled m e = scaled m' e') : m.log2 + e = m'.log2 + e' := by
  refine le_antisymm ?_ ?_
  · rw [← two_zpow_le_scaled_iff hm', ← h]
    exact two_zpow_le_scaled hm e
  · rw [← two_zpow_le_scaled_iff hm, h]
    exact two_zpow_le_scaled hm' e'

theorem eq_of_scaled_eq {m m' : Nat} {e : Int} (h : scaled m e = scaled m' e) : m = m' :=
  le_antisymm ((scaled_le_scaled_iff e).mp h.le) ((scaled_le_scaled_iff e).mp h.ge)

/-- What is in the format already is not changed by rounding, with however many zeros behind it. -/
theorem roundWithAccuracy_of_scaled_eq {spec : Format} (s : Sign) {m m₀ : Nat} {e e₀ : Int}
    (hm : 0 < m) (h : Settled spec m e) (hle : e₀ ≤ e) (heq : scaled m₀ e₀ = scaled m e) :
    roundWithAccuracy spec s m₀ e₀ .exact = .finite s m e hm := by
  obtain ⟨k, rfl⟩ := Int.le.dest hle
  have hround := FloatUnit.roundWithAccuracy_append spec s k hm (settled_iff.mp h)
  have hexponent : -(k : Int) + (e₀ + k) = e₀ := by omega
  rw [scaled_add] at heq
  rw [hexponent, Nat.mul_comm, ← eq_of_scaled_eq heq] at hround
  exact hround

private theorem round_of_scaled_eq {spec : Format} (s : Sign) {m m₀ : Nat} {e e₀ : Int} (hm : 0 < m)
    (hm₀ : 0 < m₀) (h : Settled spec m e) (heq : scaled m₀ e₀ = scaled m e) :
    UnpackedFloat.round spec s m₀ e₀ = .finite s m e hm := by
  have hlog := log2_add_eq_of_scaled_eq hm₀ hm heq
  have htarget : spec.targetExponent (totalExponent m₀ e₀) = e := by
    rw [← settled_iff.mp h, totalExponent, totalExponent]
    congr 1
    omega
  simp only [UnpackedFloat.round, decreaseExponent, htarget, Nat.shiftLeft_eq]
  refine roundWithAccuracy_of_scaled_eq s hm h (by omega) ?_
  rw [← scaled_add, Int.sub_add_cancel, heq]

theorem scaled_zero_right (n : Nat) : scaled n 0 = n := by
  rw [scaled, zpow_zero, mul_one]

/-- Without digits behind the point. -/
theorem scaled_natCast (m k : Nat) : scaled m k = (m * 2 ^ k : Nat) := by
  rw [← Int.zero_add (k : Int), scaled_add, scaled_zero_right]

/-- With `k` digits behind the point. -/
theorem floor_scaled_neg (m k : Nat) : ⌊scaled m (-k)⌋₊ = m / 2 ^ k := by
  have hdiv : scaled m (-k) = (m : ℚ) / (2 ^ k : Nat) := by
    rw [scaled, zpow_neg, zpow_natCast, div_eq_mul_inv, Nat.cast_pow, Nat.cast_ofNat]
  rw [hdiv, Nat.floor_div_eq_div]

theorem pos_of_cast_eq_scaled {n m : Nat} {e : Int} (hm : 0 < m) (heq : (n : ℚ) = scaled m e) :
    0 < n := by
  have hpos := scaled_pos hm e
  rwa [← heq, Nat.cast_pos] at hpos

/-- A whole number of the format is converted to itself. -/
theorem ofNat_of_scaled_eq {spec : Format} {n m : Nat} {e : Int} (hm : 0 < m)
    (h : Settled spec m e) (heq : (n : ℚ) = scaled m e) :
    ofNat spec n = .finite .positive m e hm := by
  have hn : 0 < n := pos_of_cast_eq_scaled hm heq
  have hcompare : compare (n : Int) 0 = .gt := Int.compare_eq_gt.mpr (by omega)
  rw [UnpackedFloat.ofNat, ofInt, UnpackedFloat.normalize, hcompare]
  exact round_of_scaled_eq .positive hm hn h (by rw [scaled_zero_right, Int.toNat_natCast, heq])

/-- So is one that is read as a decimal without places. -/
theorem ofScientific_of_scaled_eq {spec : Format} {n m : Nat} {e : Int} (hm : 0 < m)
    (h : Settled spec m e) (heq : (n : ℚ) = scaled m e) :
    ofScientific spec n 0 = .finite .positive m e hm := by
  have hbits : spec.mantissaBits = 1 + spec.mantissaBitsWithoutImplicit := rfl
  have hn : 0 < n := pos_of_cast_eq_scaled hm heq
  have hpow : (0 : Int) < 2 ^ spec.exponentBits := by positivity
  have hlog := log2_add_eq_of_scaled_eq hn hm ((scaled_zero_right n).trans heq)
  have hshort := h.short
  rw [ofScientific, dif_neg hn.ne', if_neg (by omega), if_neg (by omega), if_pos le_rfl]
  refine roundWithAccuracy_of_scaled_eq .positive hm h (by omega) ?_
  rw [← heq, ← scaled_zero_right n, Nat.shiftLeft_eq, Int.toNat_zero, Nat.pow_zero, Nat.mul_one,
    ← scaled_add]
  congr 1
  omega

theorem eq_floor_iff {q : ℚ} (hq : 0 ≤ q) : q = ⌊q⌋₊ ↔ q.den = 1 := by
  constructor
  · intro h
    rw [h]
    exact Rat.den_natCast _
  · intro hden
    obtain ⟨n, rfl⟩ := ExactValue.exists_natCast_eq hq hden
    rw [Nat.floor_natCast]

private theorem mul_unpackedOne {spec : Format} {m : Nat} {e : Int} (hm : 0 < m)
    (h : Settled spec m e) : mul spec (.finite .positive m e hm) (FloatUnit.unpackedOne spec) =
      .finite .positive m e hm := by
  refine roundWithAccuracy_of_scaled_eq .positive hm h (by omega) ?_
  rw [← scaled_add]
  congr 1
  omega

/-- The whole part of a number that is not below one is a number of the format, too, and it has the
same exponent. -/
theorem exists_floor {spec : Format} {m : Nat} {e : Int} (hm : 0 < m) (h : Normal spec m e)
    (hone : 0 ≤ m.log2 + e) :
    ∃ m', 0 < m' ∧ Normal spec m' e ∧ (⌊scaled m e⌋₊ : ℚ) = scaled m' e := by
  rcases le_or_gt 0 e with hnonneg | hneg
  · -- nothing is behind the point
    obtain ⟨k, rfl⟩ := Int.eq_ofNat_of_zero_le hnonneg
    exact ⟨m, hm, h, by rw [scaled_natCast, Nat.floor_natCast]⟩
  · -- the digits behind the point become zeros
    obtain ⟨k, rfl⟩ : ∃ k : Nat, e = -k := ⟨(-e).toNat, by omega⟩
    obtain ⟨hpos, hlog⟩ := log2_div_two_pow (k := k) hm (by omega)
    have hfull : (2 ^ k * (m / 2 ^ k)).log2 = m.log2 := by
      rw [FloatUnit.log2_two_pow_mul k hpos]
      omega
    refine ⟨2 ^ k * (m / 2 ^ k), Nat.mul_pos (Nat.two_pow_pos k) hpos,
      ⟨hfull.trans h.full, h.le⟩, ?_⟩
    rw [Nat.mul_comm, ← scaled_add, Int.add_left_neg, scaled_zero_right, floor_scaled_neg]

/-! ## Words -/

private theorem toInt_finite (negativeInfinity positiveInfinity : Int) {m : Nat} (e : Int)
    (hm : 0 < m) :
    toInt negativeInfinity positiveInfinity (.finite .positive m e hm) = ⌊scaled m e⌋₊ := by
  simp only [toInt, roundToInt, decreaseExponent, shiftToExponent, Sign.apply, mantissa_shiftRight,
    mantissa_ofMantissaAndAccuracy, Nat.shiftLeft_eq, Int.sub_zero]
  rcases le_or_gt 0 e with hnonneg | hneg
  · obtain ⟨k, rfl⟩ := Int.eq_ofNat_of_zero_le hnonneg
    rw [scaled_natCast, Nat.floor_natCast]
    simp
  · obtain ⟨k, rfl⟩ : ∃ k : Nat, e = -k := ⟨(-e).toNat, by omega⟩
    have hleft : (-(k : Int)).toNat = 0 := by omega
    rw [floor_scaled_neg, hleft]
    simp

/-- A number between the ends of the words becomes the word of its whole part. -/
theorem toNat_toUSize {spec : Format} {u : UnpackedFloat} {q : ℚ} (hu : IsValue spec u q)
    (hnonneg : 0 ≤ q) (hlt : q < USize.size) : u.toUSize.toNat = ⌊q⌋₊ := by
  have hfloor : ⌊q⌋₊ < USize.size := (Nat.floor_lt hnonneg).mpr hlt
  have hint : u.toInt 0 (USize.size - 1) = ⌊q⌋₊ := by
    cases hu with
    | zero s => rw [Nat.floor_zero]; rfl
    | positive hm h => exact toInt_finite _ _ _ hm
    | negative hm h => exact absurd hnonneg (neg_neg_of_pos (scaled_pos hm _)).not_ge
  rw [UnpackedFloat.toUSize, hint, Int.toNat_natCast, USize.ofNatClamp_eq_ofNat _ hfloor,
    USize.toNat_ofNat_of_lt' hfloor]

/-! ## Differences -/

/-- What is rounded is a zero only if it is zero exactly. -/
theorem isZero_normalize_iff (spec : Format) (m : Int) {e : Int} (he : spec.minExponent ≤ e) :
    (∃ s, unpack spec (pack spec (UnpackedFloat.normalize spec m e .positive)) = .zero s) ↔
      m = 0 := by
  constructor
  · rintro ⟨s, hs⟩
    by_contra hm
    obtain ⟨s', hnonzero⟩ := nonzero_normalize spec .positive hm he
    exact hnonzero.ne_zero hs
  · rintro rfl
    exact ⟨.positive, unpack_packedZero⟩

theorem isZero_sub_iff {spec : Format} {m m' : Nat} {e : Int} (hm : 0 < m) (hm' : 0 < m')
    (he : spec.minExponent ≤ e) :
    (∃ s, unpack spec (pack spec
      (sub spec (.finite .positive m e hm) (.finite .positive m' e hm'))) = .zero s) ↔ m = m' := by
  have hshift : (e - e).toNat = 0 := by omega
  simp only [sub, decreaseExponent, min_self, hshift, Nat.shiftLeft_zero, Sign.apply,
    isZero_normalize_iff spec _ he]
  omega

/-- Negating a number negates its value. -/
theorem IsValue.neg {spec : Format} {u : UnpackedFloat} {q : ℚ} (h : IsValue spec u q) :
    IsValue spec u.neg (-q) := by
  cases h with
  | zero s =>
      rw [neg_zero]
      exact .zero (-s)
  | positive hm h => exact .negative hm h
  | negative hm h =>
      rw [InvolutiveNeg.neg_neg]
      exact .positive hm h

end Packed

/-! ## Values of numbers -/

section Values

open PackedArith

/-- Cutting off what is behind the point leaves the natural number below. -/
theorem MachineFloat.trunc_eq {α : Type} [MachineFloat α] {x : α} {q : ℚ}
    (h : (FloatArith.exactValue x).rational? = some q) (hone : 1 ≤ q) :
    MachineFloat.trunc x = Arith.ofNat ⌊q⌋₊ := by
  rw [MachineFloat.trunc]
  cases hvalue : FloatArith.exactValue x with
  | nan => rw [hvalue] at h; cases h
  | infinite negative => rw [hvalue] at h; cases h
  | finite negative steps depth =>
      have hfraction : (steps : ℚ) / 2 ^ depth = steps / (2 ^ depth : Nat) := by push_cast; rfl
      have hnonneg : (0 : ℚ) ≤ steps / 2 ^ depth := by positivity
      rw [hvalue, ExactValue.rational?, Option.some.injEq] at h
      cases negative with
      | true =>
          rw [if_pos rfl, neg_one_mul] at h
          linarith
      | false =>
          rw [if_neg Bool.false_ne_true, MulOneClass.one_mul, hfraction] at h
          rw [← h, Nat.floor_div_eq_div]
          rfl

variable {α : Type} [FloatArith α] [PackedArith α]

theorem PackedArith.isValue {x : α} {q : ℚ} (h : (FloatArith.exactValue x).rational? = some q) :
    Packed.IsValue (spec α) (number x) q := by
  rw [exactValue_eq_value] at h
  exact Packed.isValue_of_rational? h

theorem PackedArith.isValue_one : Packed.IsValue (spec α) (number (Arith.one : α)) 1 := by
  have hwide : 2 ≤ (spec α).exponentBits := wide
  have hroom := Packed.minExponent_le hwide
  have hvalue := Packed.IsValue.positive (Nat.two_pow_pos _)
    (Packed.normal_two_pow (spec α) (k := 0) (by omega)).settled
  rw [Packed.scaled_two_pow, zpow_zero] at hvalue
  simp only [Int.zero_sub] at hvalue
  rw [number, unpack_one]
  exact hvalue

/-- A number that is not below one has all its digits. -/
theorem PackedArith.exists_normal {x : α} {q : ℚ}
    (h : (FloatArith.exactValue x).rational? = some q) (hone : 1 ≤ q) :
    ∃ m e, ∃ hm : 0 < m, number x = .finite .positive m e hm ∧ Packed.Normal (spec α) m e ∧
      0 ≤ m.log2 + e ∧ q = Packed.scaled m e ∧ q < Packed.limit (spec α) := by
  have hmagnitude : 1 ≤ Packed.magnitude (spec α) (number x) := by
    rw [← magnitude_eq, magnitude, ExactValue.magnitude_of_rational? _ h]
    exact hone.trans (le_abs_self q)
  have hvalue := isValue h
  have hlarge : Packed.AtLeastOne (spec α) (number x) := Packed.atLeastOne_of_unpack wide hmagnitude
  generalize number x = u at hvalue hlarge
  cases hvalue with
  | zero s => exact absurd hone (by norm_num)
  | negative hm hsettled =>
      exact absurd hone (not_le.mpr ((neg_neg_of_pos (Packed.scaled_pos hm _)).trans one_pos))
  | @positive m e hm hsettled =>
      cases hlarge with
      | finite s hm hnormal hlog hlimit => exact ⟨m, e, hm, rfl, hnormal, hlog, rfl, hlimit⟩

end Values

/-! ## Numbers of the machine -/

/-- Packed numbers that are tested and converted by what is packed.  The format has room for the
number of words. -/
class PackedMachine (α : Type) [MachineFloat α] [PackedArith α] : Prop extends PackedNeg α where
  roomy : 64 < 2 ^ ((PackedArith.spec α).exponentBits - 1)
  bits_sub (x y : α) :
    PackedArith.bits (x - y) =
      pack (PackedArith.spec α)
        (sub (PackedArith.spec α) (PackedArith.number x) (PackedArith.number y))
  /-- A natural number is converted through a machine word, or else read as a decimal. -/
  bits_ofNat (n : Nat) :
    PackedArith.bits (Arith.ofNat n : α) =
        pack (PackedArith.spec α) (mul (PackedArith.spec α)
          (unpack (PackedArith.spec α) (pack (PackedArith.spec α) (ofNat (PackedArith.spec α) n)))
          (FloatUnit.unpackedOne (PackedArith.spec α))) ∨
      PackedArith.bits (Arith.ofNat n : α) =
        pack (PackedArith.spec α) (ofScientific (PackedArith.spec α) n 0)
  isFinite_eq (x : α) : MachineFloat.isFinite x = (PackedArith.number x).isFinite
  lt_eq (x y : α) : MachineFloat.lt x y = (PackedArith.number x).lt (PackedArith.number y)
  beq_eq (x y : α) : MachineFloat.beq x y = (PackedArith.number x).beq (PackedArith.number y)
  toWord_eq (x : α) : MachineFloat.toWord x = (PackedArith.number x).toUSize

namespace PackedMachine

open PackedArith Packed

variable {α : Type} [MachineFloat α] [PackedArith α] [PackedMachine α]

/-! ### Tests -/

theorem isFinite_iff (x : α) :
    MachineFloat.isFinite x = true ↔ ∃ q, (FloatArith.exactValue x).rational? = some q := by
  rw [isFinite_eq, exactValue_eq_value]
  cases number x with
  | notANumber => exact iff_of_false nofun nofun
  | infinity s => exact iff_of_false nofun nofun
  | zero s => exact iff_of_true rfl ⟨_, rfl⟩
  | finite s m e hm => exact iff_of_true rfl ⟨_, rfl⟩

theorem lt_one_iff {x : α} {q : ℚ} (h : (FloatArith.exactValue x).rational? = some q) :
    MachineFloat.lt x Arith.one = true ↔ q < 1 := by
  rw [lt_eq, lt_iff (isValue h) isValue_one]

/-! ### Natural numbers -/

/-- A natural number that is a number of the format is converted to it. -/
theorem bits_ofNat_of_normal {n m : Nat} {e : Int} (hm : 0 < m) (h : Normal (spec α) m e)
    (heq : (n : ℚ) = scaled m e) (hlimit : (n : ℚ) < limit (spec α)) :
    bits (Arith.ofNat n : α) = pack (spec α) (.finite .positive m e hm) := by
  rw [heq] at hlimit
  rcases bits_ofNat (α := α) n with hword | hdecimal
  · rw [hword, ofNat_of_scaled_eq hm h.settled heq, unpack_pack_normal _ hm h,
      if_neg hlimit.not_ge, mul_unpackedOne hm h.settled]
  · rw [hdecimal, ofScientific_of_scaled_eq hm h.settled heq]

theorem number_ofNat_of_normal {n m : Nat} {e : Int} (hm : 0 < m) (h : Normal (spec α) m e)
    (heq : (n : ℚ) = scaled m e) (hlimit : (n : ℚ) < limit (spec α)) :
    number (Arith.ofNat n : α) = .finite .positive m e hm := by
  rw [number, bits_ofNat_of_normal hm h heq hlimit, unpack_pack_normal _ hm h, ← heq,
    if_neg hlimit.not_ge]

/-- A whole number is got back from the natural number that it is. -/
theorem ofNat_of_whole {x : α} {n : Nat} (h : (FloatArith.exactValue x).rational? = some (n : ℚ))
    (hn : 1 ≤ n) : Arith.ofNat n = x := by
  obtain ⟨m, e, hm, hnumber, hnormal, -, hq, hlimit⟩ := exists_normal h (by exact_mod_cast hn)
  refine eq_of_bits ?_
  rw [bits_ofNat_of_normal hm hnormal hq hlimit, ← hnumber, number,
    pack_unpack_of_valid (valid x) wide]

/-- A power of two that is not too large is converted exactly. -/
theorem isValue_ofNat_two_pow {k : Nat} (hk : k < 2 ^ ((spec α).exponentBits - 1)) :
    IsValue (spec α) (number (Arith.ofNat (2 ^ k) : α)) (2 ^ k : Nat) := by
  have hpos : 0 < 2 ^ (spec α).mantissaBitsWithoutImplicit := Nat.two_pow_pos _
  have hwide : 2 ≤ (spec α).exponentBits := wide
  have hroom := minExponent_le hwide
  have hnormal : Normal (spec α) _ (k - (spec α).mantissaBitsWithoutImplicit) :=
    normal_two_pow (spec α) (by omega)
  have hscaled : ((2 ^ k : Nat) : ℚ) = scaled (2 ^ (spec α).mantissaBitsWithoutImplicit)
      (k - (spec α).mantissaBitsWithoutImplicit) := by
    rw [scaled_two_pow, zpow_natCast, Nat.cast_pow, Nat.cast_ofNat]
  have hlimit : ((2 ^ k : Nat) : ℚ) < limit (spec α) := by
    rw [limit, Nat.cast_pow, Nat.cast_ofNat]
    exact pow_lt_pow_right₀ one_lt_two hk
  rw [number_ofNat_of_normal hpos hnormal hscaled hlimit, hscaled]
  exact .positive hpos hnormal.settled

/-- The number of words is a number of the machine. -/
theorem isValue_size : IsValue (spec α) (number (Arith.ofNat USize.size : α)) USize.size := by
  have hroomy := roomy (α := α)
  rcases USize.size_eq with hsize | hsize
  · rw [hsize]
    exact isValue_ofNat_two_pow (k := 32) (by omega)
  · rw [hsize]
    exact isValue_ofNat_two_pow (k := 64) hroomy

/-! ### Behind the point -/

/-- Nothing is behind the point of whole numbers only. -/
theorem beq_fract_iff {x : α} {q : ℚ} (h : (FloatArith.exactValue x).rational? = some q)
    (hone : 1 ≤ q) :
    MachineFloat.beq (MachineFloat.fract x) Arith.zero = true ↔ q.den = 1 := by
  obtain ⟨m, e, hm, hnumber, hnormal, hlog, rfl, hlimit⟩ := exists_normal h hone
  obtain ⟨m', hm', hnormal', hfloor⟩ := exists_floor hm hnormal hlog
  have hle : (⌊scaled m e⌋₊ : ℚ) ≤ scaled m e := Nat.floor_le (scaled_nonneg m e)
  have htrunc : number (MachineFloat.trunc x) = .finite .positive m' e hm' := by
    rw [MachineFloat.trunc_eq h hone]
    exact number_ofNat_of_normal hm' hnormal' hfloor (hle.trans_lt hlimit)
  rw [beq_eq, number_zero, beq_zero_iff, MachineFloat.fract, number, bits_sub, hnumber, htrunc,
    isZero_sub_iff hm hm' hnormal.le, ← eq_floor_iff (scaled_nonneg m e), hfloor]
  constructor
  · rintro rfl
    rfl
  · exact eq_of_scaled_eq

end PackedMachine

/-! ## Words -/

/-- A conversion to words as it is documented: what is within the words becomes the word of its
whole part, and what is beyond them becomes none. -/
structure ConvertsToWords {α : Type} [FloatArith α] (toWord? : α → Option USize) : Prop where
  within : ∀ (x : α) (q : ℚ), (FloatArith.exactValue x).rational? = some q → 0 ≤ q →
    q < USize.size → (toWord? x).map USize.toNat = some ⌊q⌋₊
  beyond : ∀ (x : α) (q : ℚ), (FloatArith.exactValue x).rational? = some q → USize.size ≤ q →
    toWord? x = none

/-- A whole number becomes its word, if it has one. -/
theorem ConvertsToWords.map_toNat_of_whole {α : Type} [FloatArith α] {toWord? : α → Option USize}
    (h : ConvertsToWords toWord?) {x : α} {n : Nat}
    (hvalue : (FloatArith.exactValue x).rational? = some (n : ℚ)) :
    (toWord? x).map USize.toNat = if n < USize.size then some n else none := by
  by_cases hlt : n < USize.size
  · rw [if_pos hlt, h.within x n hvalue n.cast_nonneg (by exact_mod_cast hlt), Nat.floor_natCast]
  · rw [if_neg hlt, h.beyond x n hvalue (by exact_mod_cast Nat.le_of_not_lt hlt), Option.map_none]

section Words

open PackedArith PackedMachine

variable {α : Type} [MachineFloat α] [PackedArith α] [PackedMachine α]

theorem lt_size_iff {x : α} {q : ℚ} (h : (FloatArith.exactValue x).rational? = some q) :
    MachineFloat.lt x (Arith.ofNat USize.size) = true ↔ q < USize.size := by
  rw [lt_eq, Packed.lt_iff (isValue h) isValue_size]

theorem neg_one_lt_iff {x : α} {q : ℚ} (h : (FloatArith.exactValue x).rational? = some q) :
    MachineFloat.lt (-Arith.one) x = true ↔ -1 < q := by
  rw [lt_eq, PackedNeg.number_neg, Packed.lt_iff isValue_one.neg (isValue h)]

/-- Comparing with the ends of the words first is such a conversion. -/
theorem convertsToWords_toWord? : ConvertsToWords (MachineFloat.toWord? : α → Option USize) where
  within := by
    intro x q h hnonneg hlt
    rw [MachineFloat.toWord?, (neg_one_lt_iff h).mpr (by linarith), (lt_size_iff h).mpr hlt,
      Bool.and_self, if_pos rfl, Option.map_some, toWord_eq,
      Packed.toNat_toUSize (isValue h) hnonneg hlt]
  beyond := by
    intro x q h hge
    have hhigh : MachineFloat.lt x (Arith.ofNat USize.size) = false := by
      rw [Bool.eq_false_iff, Ne, lt_size_iff h]
      exact hge.not_gt
    rw [MachineFloat.toWord?, hhigh, Bool.and_false, if_neg Bool.false_ne_true]

end Words

/-! ## Both types -/

private theorem bits_ofNat_double (n : Nat) :
    (Arith.ofNat n : Float).toModel.toBits.toBitVec =
        pack .binary64 (mul .binary64 (unpack .binary64 (pack .binary64 (ofNat .binary64 n)))
          (FloatUnit.unpackedOne .binary64)) ∨
      (Arith.ofNat n : Float).toModel.toBits.toBitVec =
        pack .binary64 (ofScientific .binary64 n 0) := by
  have hone : (Float.ofBits 0x3FF0000000000000).toModel.unpack = FloatUnit.unpackedOne .binary64 :=
    rfl
  change (Float.ofScientific n false 0).toModel.toBits.toBitVec = _ ∨
    (Float.ofScientific n false 0).toModel.toBits.toBitVec = _
  rw [Float.ofScientific]
  by_cases hn : n < 2 ^ 53
  · have hword : n.toUInt64.toNat = n := by
      rw [Nat.toUInt64_eq, UInt64.toNat_ofNat']
      omega
    left
    rw [dif_pos ⟨hn, by decide⟩]
    change pack .binary64 (mul .binary64
      (unpack .binary64 (pack .binary64 (ofNat .binary64 n.toUInt64.toNat)))
      (Float.ofBits 0x3FF0000000000000).toModel.unpack) = _
    rw [hone, hword]
  · right
    rw [dif_neg fun h => hn h.1]
    rfl

private theorem bits_ofNat_single (n : Nat) :
    (Arith.ofNat n : Float32).toModel.toBits.toBitVec =
        pack .binary32 (mul .binary32 (unpack .binary32 (pack .binary32 (ofNat .binary32 n)))
          (FloatUnit.unpackedOne .binary32)) ∨
      (Arith.ofNat n : Float32).toModel.toBits.toBitVec =
        pack .binary32 (ofScientific .binary32 n 0) := by
  have hone : (Float32.ofBits 0x3F800000).toModel.unpack = FloatUnit.unpackedOne .binary32 := rfl
  change (Float32.ofScientific n false 0).toModel.toBits.toBitVec = _ ∨
    (Float32.ofScientific n false 0).toModel.toBits.toBitVec = _
  rw [Float32.ofScientific]
  by_cases hn : n < 2 ^ 23
  · have hword : n.toUInt64.toNat = n := by
      rw [Nat.toUInt64_eq, UInt64.toNat_ofNat']
      omega
    left
    rw [dif_pos ⟨hn, by decide⟩]
    change pack .binary32 (mul .binary32
      (unpack .binary32 (pack .binary32 (ofNat .binary32 n.toUInt64.toNat)))
      (Float32.ofBits 0x3F800000).toModel.unpack) = _
    rw [hone, hword]
  · right
    rw [dif_neg fun h => hn h.1]
    rfl

instance machineDouble : @PackedMachine Float _ (packedDouble Arith.pow) :=
  letI : PackedArith Float := packedDouble Arith.pow
  { bits_neg _ := rfl
    roomy := by decide
    bits_sub _ _ := rfl
    bits_ofNat := bits_ofNat_double
    isFinite_eq _ := rfl
    lt_eq _ _ := Bool.decide_eq_true
    beq_eq _ _ := rfl
    toWord_eq _ := rfl }

instance machineSingle : @PackedMachine Float32 _ (packedSingle Arith.pow) :=
  letI : PackedArith Float32 := packedSingle Arith.pow
  { bits_neg _ := rfl
    roomy := by decide
    bits_sub _ _ := rfl
    bits_ofNat := bits_ofNat_single
    isFinite_eq _ := rfl
    lt_eq _ _ := Bool.decide_eq_true
    beq_eq _ _ := rfl
    toWord_eq _ := rfl }

end PNorm
