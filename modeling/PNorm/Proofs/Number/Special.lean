import PNorm.Proofs.Number.Packed

/-!
# NaN, zeros and positive numbers

What a floating-point number is, as far as it matters whether it is NaN, a zero or
above zero.  The four predicates are stated by exact values, for every type of
floating-point numbers.

`PackedArith` says of such a type that its numbers are the bits of a format and that its
operations round to that format.  The rules for NaN and for zeros follow from that
alone, and both types of the calculator have it (`packedDouble`, `packedSingle`).

Powers are not among these operations: they are computed outside, and nothing is known
of them but what is assumed.  `FloatArith.withPow` puts a given power in their place.
With the power that a type has already nothing changes (`FloatArith.withPow_pow`).
-/

open Float.Model (Format UnpackedFloat)
open Float.Model.UnpackedFloat

namespace PNorm

/-- The same numbers with another power. -/
abbrev FloatArith.withPow {α : Type} [arith : FloatArith α] (pow : α → α → α) : FloatArith α :=
  { arith with pow := pow }

theorem FloatArith.withPow_pow {α : Type} [arith : FloatArith α] :
    FloatArith.withPow Arith.pow = arith :=
  rfl

section Kinds

variable {α : Type} [FloatArith α]

def IsNan (x : α) : Prop :=
  FloatArith.exactValue x = .nan

/-- A zero of either sign. -/
def IsZero (x : α) : Prop :=
  ∃ negative depth, FloatArith.exactValue x = .finite negative 0 depth

def IsNegativeZero (x : α) : Prop :=
  ∃ depth, FloatArith.exactValue x = .finite true 0 depth

/-- A number above zero, which infinity is too. -/
def IsPositive (x : α) : Prop :=
  FloatArith.exactValue x = .infinite false ∨
    ∃ steps depth, 0 < steps ∧ FloatArith.exactValue x = .finite false steps depth

theorem IsPositive.not_isZero {x : α} (h : IsPositive x) : ¬ IsZero x := by
  rintro ⟨negative, depth, hzero⟩
  rcases h with hinfinite | ⟨steps, depth', hsteps, hfinite⟩
  · rw [hinfinite] at hzero
    cases hzero
  · rw [hfinite] at hzero
    cases hzero
    omega

theorem isPositive_of_isAtLeastOne {x : α} (h : (FloatArith.exactValue x).isAtLeastOne = true) :
    IsPositive x := by
  cases hvalue : FloatArith.exactValue x with
  | nan | infinite =>
      rw [hvalue] at h
      cases h
  | finite negative steps depth =>
      rw [hvalue] at h
      cases negative with
      | true => cases h
      | false =>
          have hpow := Nat.two_pow_pos depth
          have hle : 2 ^ depth ≤ steps := of_decide_eq_true h
          exact .inr ⟨steps, depth, by omega, hvalue⟩

end Kinds

/-! ## Numbers that are packed -/

/-- Numbers that are the bits of a format, and operations that round to it.  The bits of NaN are one
pattern. -/
class PackedArith (α : Type) [FloatArith α] where
  spec : Format
  long : 2 ≤ spec.mantissaBitsWithoutImplicit
  wide : 2 ≤ spec.exponentBits
  bits : α → BitVec spec.numBits
  valid (x : α) : spec.Valid (bits x)
  eq_of_bits {x y : α} (h : bits x = bits y) : x = y
  exactValue_eq (x : α) : FloatArith.exactValue x = (Packed.format spec).exactValue (bits x).toNat
  bits_nan : bits FloatArith.nan = packedNaN spec
  bits_zero : bits Arith.zero = packedZero spec .positive
  unpack_one : unpack spec (bits Arith.one) = FloatUnit.unpackedOne spec
  bits_add (x y : α) :
    bits (x + y) = pack spec (add spec (unpack spec (bits x)) (unpack spec (bits y)))
  bits_mul (x y : α) :
    bits (x * y) = pack spec (mul spec (unpack spec (bits x)) (unpack spec (bits y)))
  bits_div (x y : α) :
    bits (x / y) = pack spec (div spec (unpack spec (bits x)) (unpack spec (bits y)))
  bits_sqrt (x : α) : bits (Arith.sqrt x) = pack spec (sqrt spec (unpack spec (bits x)))
  isAtLeastOne_ofNat {n : Nat} (hpos : 1 ≤ n) (hle : n ≤ 32) :
    (FloatArith.exactValue (Arith.ofNat n : α)).isAtLeastOne = true

namespace PackedArith

variable {α : Type} [FloatArith α] [PackedArith α]

/-- The unpacked number. -/
def number (x : α) : UnpackedFloat :=
  unpack (spec α) (bits x)

theorem exactValue_eq_value (x : α) :
    FloatArith.exactValue x = Packed.value (spec α) (number x) := by
  rw [exactValue_eq, Packed.exactValue_toNat, number]

theorem isNan_iff (x : α) : IsNan x ↔ number x = .notANumber := by
  rw [IsNan, exactValue_eq_value]
  cases number x <;> simp [Packed.value]

theorem isZero_iff (x : α) : IsZero x ↔ ∃ s, number x = .zero s := by
  rw [IsZero, exactValue_eq_value]
  cases number x with
  | zero s => simp [Packed.value]
  | infinity | notANumber => simp [Packed.value]
  | finite s m e hm => simp [Packed.value, hm.ne']

theorem isNegativeZero_iff (x : α) : IsNegativeZero x ↔ number x = .zero .negative := by
  rw [IsNegativeZero, exactValue_eq_value]
  cases number x with
  | zero s => simp [Packed.value]
  | infinity | notANumber => simp [Packed.value]
  | finite s m e hm => simp [Packed.value, hm.ne']

theorem isPositive_of_nonzero {x : α} (h : Packed.Nonzero .positive (number x)) :
    IsPositive x := by
  rw [IsPositive, exactValue_eq_value]
  generalize number x = u at h
  cases h with
  | infinity => exact .inl rfl
  | finite m e hm => exact .inr ⟨_, _, Nat.mul_pos hm (Nat.two_pow_pos _), rfl⟩

private theorem number_nan : number (FloatArith.nan : α) = .notANumber := by
  rw [number, bits_nan, unpack_packedNaN]

theorem number_zero : number (Arith.zero : α) = .zero .positive := by
  rw [number, bits_zero, unpack_packedZero]

/-! ### NaN -/

theorem isNan_nan : IsNan (FloatArith.nan : α) :=
  (isNan_iff _).mpr number_nan

theorem isNan_of_bits {x : α} (h : bits x = pack (spec α) .notANumber) : IsNan x := by
  rw [isNan_iff, number, h, pack, unpack_packedNaN]

theorem isNan_add {x y : α} (h : IsNan x ∨ IsNan y) : IsNan (x + y) := by
  refine isNan_of_bits ?_
  simp only [isNan_iff, number] at h
  rw [bits_add]
  rcases h with hx | hy
  · rw [hx]
    rfl
  · rw [hy, Packed.add_notANumber]

theorem isNan_mul {x y : α} (h : IsNan x ∨ IsNan y) : IsNan (x * y) := by
  refine isNan_of_bits ?_
  simp only [isNan_iff, number] at h
  rw [bits_mul]
  rcases h with hx | hy
  · rw [hx]
    rfl
  · rw [hy, Packed.mul_notANumber]

theorem isNan_sqrt {x : α} (h : IsNan x) : IsNan (Arith.sqrt x) := by
  refine isNan_of_bits ?_
  rw [isNan_iff, number] at h
  rw [bits_sqrt, h]
  rfl

/-! ### Zeros -/

theorem not_isNegativeZero_zero : ¬ IsNegativeZero (Arith.zero : α) := by
  rw [isNegativeZero_iff, number_zero]
  simp

theorem one_mul (x : α) : Arith.one * x = x := by
  refine eq_of_bits ?_
  rw [bits_mul, unpack_one, FloatUnit.pack_mul_one (spec α) wide (valid x)]

theorem add_of_isZero {x z : α} (hx : ¬ IsNegativeZero x) (hz : IsZero z) : x + z = x := by
  rw [isNegativeZero_iff] at hx
  obtain ⟨s, hs⟩ := (isZero_iff z).mp hz
  refine eq_of_bits ?_
  rw [bits_add, ← number, ← number, hs, Packed.add_zero _ hx, number,
    pack_unpack_of_valid (valid x) wide]

theorem isNegativeZero_of_add {x y : α} (h : IsNegativeZero (x + y)) :
    IsNegativeZero x ∧ IsNegativeZero y := by
  rw [isNegativeZero_iff, number, bits_add] at h
  rw [isNegativeZero_iff, isNegativeZero_iff]
  exact Packed.eq_zero_negative_of_add wide (valid x) (valid y) h

theorem isZero_mul {x y : α} (hx : IsZero x) (hy : IsZero y) : IsZero (x * y) := by
  obtain ⟨s, hs⟩ := (isZero_iff x).mp hx
  obtain ⟨s', hs'⟩ := (isZero_iff y).mp hy
  rw [isZero_iff, number, bits_mul, ← number, ← number, hs, hs']
  exact ⟨_, unpack_packedZero⟩

theorem sqrt_zero : Arith.sqrt (Arith.zero : α) = Arith.zero := by
  refine eq_of_bits ?_
  rw [bits_sqrt, ← number, number_zero, bits_zero]
  rfl

/-! ### Quotients -/

/-- One divided by an exponent is above zero. -/
theorem isPositive_one_div {x : α} (h : (FloatArith.exactValue x).isAtLeastOne = true) :
    IsPositive (Arith.one / x) := by
  refine isPositive_of_nonzero ?_
  rw [exactValue_eq_value] at h
  rw [number, bits_div, unpack_one]
  cases hx : number x with
  | infinity | notANumber => rw [hx] at h; cases h
  | zero s =>
      rw [hx, Packed.value] at h
      have hpow := Nat.two_pow_pos (Packed.format (spec α)).depth
      cases s with
      | negative => cases h
      | positive => exact absurd (of_decide_eq_true h) (by omega)
  | finite s m e hm =>
      rw [hx] at h
      cases s with
      | negative => cases h
      | positive => exact Packed.nonzero_one_div long wide hx

end PackedArith

/-! ## Both types -/

private theorem bits_nan_double :
    (FloatArith.nan : Float).toModel.toBits.toBitVec = packedNaN .binary64 := by
  decide +kernel

private theorem bits_zero_double :
    (Arith.zero : Float).toModel.toBits.toBitVec = packedZero .binary64 .positive := by
  decide +kernel

private theorem unpack_one_double :
    unpack .binary64 (Arith.one : Float).toModel.toBits.toBitVec =
      FloatUnit.unpackedOne .binary64 :=
  rfl

private theorem isAtLeastOne_ofNat_double :
    ∀ n ≤ 32, 1 ≤ n → (FloatArith.exactValue (Arith.ofNat n : Float)).isAtLeastOne = true := by
  decide +kernel

/-- The doubles, with any power. -/
instance packedDouble (pow : Float → Float → Float) : @PackedArith Float (.withPow pow) :=
  letI : FloatArith Float := .withPow pow
  { spec := .binary64
    long := by decide
    wide := by decide
    bits x := x.toModel.toBits.toBitVec
    valid x := x.toModel.valid
    eq_of_bits := by
      rintro ⟨⟨⟨bits⟩, hvalid⟩⟩ ⟨⟨⟨bits'⟩, hvalid'⟩⟩ h
      cases h
      rfl
    exactValue_eq _ := rfl
    bits_nan := bits_nan_double
    bits_zero := bits_zero_double
    unpack_one := unpack_one_double
    isAtLeastOne_ofNat hpos hle := isAtLeastOne_ofNat_double _ hle hpos
    bits_add _ _ := rfl
    bits_mul _ _ := rfl
    bits_div _ _ := rfl
    bits_sqrt _ := rfl }

private theorem bits_nan_single :
    (FloatArith.nan : Float32).toModel.toBits.toBitVec = packedNaN .binary32 := by
  decide +kernel

private theorem bits_zero_single :
    (Arith.zero : Float32).toModel.toBits.toBitVec = packedZero .binary32 .positive := by
  decide +kernel

private theorem unpack_one_single :
    unpack .binary32 (Arith.one : Float32).toModel.toBits.toBitVec =
      FloatUnit.unpackedOne .binary32 :=
  rfl

private theorem isAtLeastOne_ofNat_single :
    ∀ n ≤ 32, 1 ≤ n → (FloatArith.exactValue (Arith.ofNat n : Float32)).isAtLeastOne = true := by
  decide +kernel

/-- The numbers of the 32-bit format, with any power. -/
instance packedSingle (pow : Float32 → Float32 → Float32) : @PackedArith Float32 (.withPow pow) :=
  letI : FloatArith Float32 := .withPow pow
  { spec := .binary32
    long := by decide
    wide := by decide
    bits x := x.toModel.toBits.toBitVec
    valid x := x.toModel.valid
    eq_of_bits := by
      rintro ⟨⟨⟨bits⟩, hvalid⟩⟩ ⟨⟨⟨bits'⟩, hvalid'⟩⟩ h
      cases h
      rfl
    exactValue_eq _ := rfl
    bits_nan := bits_nan_single
    bits_zero := bits_zero_single
    unpack_one := unpack_one_single
    isAtLeastOne_ofNat hpos hle := isAtLeastOne_ofNat_single _ hle hpos
    bits_add _ _ := rfl
    bits_mul _ _ := rfl
    bits_div _ _ := rfl
    bits_sqrt _ := rfl }

end PNorm
