import Mathlib.Tactic.FieldSimp
import Mathlib.Tactic.Linarith
import Mathlib.Tactic.NormNum
import Mathlib.Tactic.Positivity
import Mathlib.Tactic.Ring
import PNorm.Number.Binary

/-!
# Rounding to the nearest bit pattern

`BinaryFormat.IsNearest q bits` says that `bits` is the correct rounding of the
nonnegative number `q`: no other pattern is nearer, and of two equally near ones it
is the even one.  The bits of infinity take part in this as the power of two that
would be the next number, so that a number is rounded to infinity exactly if it
would be rounded to that power or a larger one.

`isNearest_nearestDecimal` is the main statement: reading a decimal gives its
correct rounding, whatever its length and however far it is beyond the grid.
`IsNearest.unique` adds that there is only one.

Distances are measured in steps of the format.  The grid is not even, but above a
power of two all its points are multiples of one spacing (`exists_multiple_or_lt`),
and among these multiples `roundDiv` finds the nearest.
-/

namespace PNorm

/-! ## The nearest natural number -/

theorem roundDiv_toEven (num : Nat) {den : Nat} (hden : 0 < den) :
    |(num / den : ℚ) - roundDiv .toEven num den| ≤ 1 / 2 ∧
      (|(num / den : ℚ) - roundDiv .toEven num den| = 1 / 2 →
        roundDiv .toEven num den % 2 = 0) := by
  have hpos : (0 : ℚ) < den := by exact_mod_cast hden
  have hsplit : (num / den : ℚ) = (num / den : Nat) + (num % den : Nat) / den := by
    rw [eq_comm, ← eq_sub_iff_add_eq', div_eq_iff hpos.ne', sub_mul, div_mul_cancel₀ _ hpos.ne']
    have hmod : ((num % den + num / den * den : Nat) : ℚ) = num := by
      rw [Nat.mod_add_div']
    push_cast at hmod
    linarith
  have hnonneg : (0 : ℚ) ≤ (num % den : Nat) / den := by positivity
  unfold roundDiv
  cases hcompare : compare (2 * (num % den)) den with
  | lt =>
      -- below the middle
      have hlt : (num % den : Nat) / (den : ℚ) < 1 / 2 := by
        rw [div_lt_iff₀ hpos]
        have h : ((2 * (num % den) : Nat) : ℚ) < den := by
          exact_mod_cast Nat.compare_eq_lt.mp hcompare
        push_cast at h
        linarith
      have habs : |(num / den : ℚ) - (num / den : Nat)| < 1 / 2 := by
        rw [hsplit, add_sub_cancel_left, abs_of_nonneg hnonneg]
        exact hlt
      exact ⟨habs.le, fun h => absurd h habs.ne⟩
  | gt =>
      -- above the middle
      have hgt : 1 / 2 < (num % den : Nat) / (den : ℚ) := by
        rw [lt_div_iff₀ hpos]
        have h : (den : ℚ) < ((2 * (num % den) : Nat) : ℚ) := by
          exact_mod_cast Nat.compare_eq_gt.mp hcompare
        push_cast at h
        linarith
      have hle : (num % den : Nat) / (den : ℚ) < 1 := by
        rw [div_lt_one hpos]
        exact_mod_cast Nat.mod_lt num hden
      have habs : |(num / den : ℚ) - (num / den + 1 : Nat)| < 1 / 2 := by
        rw [hsplit, abs_lt]
        push_cast
        constructor <;> linarith
      exact ⟨habs.le, fun h => absurd h habs.ne⟩
  | eq =>
      -- in the middle, where the even neighbour is taken
      have heq : (num % den : Nat) / (den : ℚ) = 1 / 2 := by
        rw [div_eq_iff hpos.ne']
        have h : ((2 * (num % den) : Nat) : ℚ) = den := by
          exact_mod_cast Nat.compare_eq_eq.mp hcompare
        push_cast at h
        linarith
      constructor
      · rcases Nat.mod_two_eq_zero_or_one (num / den) with heven | hodd
        · simp only [heven, hsplit, heq]
          norm_num
        · simp only [hodd, hsplit, heq]
          push_cast
          norm_num
      · intro _
        simp only
        omega

/-- A number within one half of `x` is nearer to it than all others, except that one other can be
as near. -/
theorem abs_sub_le_of_half {x : ℚ} {m other : Nat} (hm : |x - m| ≤ 1 / 2) (hne : other ≠ m) :
    |x - m| ≤ |x - other| ∧ (|x - other| = |x - m| → |x - m| = 1 / 2) := by
  have hone : (1 : ℚ) ≤ |(m : ℚ) - other| := by
    have h : (1 : ℤ) ≤ |(m : ℤ) - other| := Int.one_le_abs (sub_ne_zero.mpr (by omega))
    exact_mod_cast h
  have htriangle : |(m : ℚ) - other| ≤ |x - m| + |x - other| := by
    calc |(m : ℚ) - other| = |(x - other) - (x - m)| := by congr 1; ring
      _ ≤ |x - other| + |x - m| := abs_sub _ _
      _ = |x - m| + |x - other| := add_comm _ _
  constructor
  · linarith
  · intro heq
    linarith

namespace BinaryFormat

variable (f : BinaryFormat)

/-! ## The grid -/

/-- How many steps the value of a bit pattern without sign is.  For the bits of infinity this is the
power of two that would come next. -/
def steps (bits : Nat) : Nat :=
  let fraction := bits % 2 ^ f.fractionBits
  let exponent := bits / 2 ^ f.fractionBits
  if exponent = 0 then fraction
  else (2 ^ f.fractionBits + fraction) * 2 ^ (exponent - 1)

/-- The value of a bit pattern without sign. -/
def magnitude (bits : Nat) : ℚ :=
  f.steps bits / 2 ^ f.depth

/-- `bits` is the correct rounding of `q`. -/
structure IsNearest (q : ℚ) (bits : Nat) : Prop where
  le_infinity : bits ≤ f.infinityBits
  nearest : ∀ other ≤ f.infinityBits, |q - f.magnitude bits| ≤ |q - f.magnitude other|
  even_of_tie : ∀ other ≤ f.infinityBits, other ≠ bits →
    |q - f.magnitude other| = |q - f.magnitude bits| → bits % 2 = 0

/-- Every pattern is some number of full rows and a place in the next one. -/
theorem exists_rows (bits : Nat) : ∃ k m, bits = k * 2 ^ f.fractionBits + m ∧
    m < 2 ^ (f.fractionBits + 1) ∧ (k = 0 ∨ 2 ^ f.fractionBits ≤ m) := by
  have hpos := Nat.two_pow_pos f.fractionBits
  have hsplit := Nat.div_add_mod' bits (2 ^ f.fractionBits)
  have hmod := Nat.mod_lt bits hpos
  rw [Nat.pow_succ]
  rcases Nat.eq_zero_or_pos (bits / 2 ^ f.fractionBits) with hzero | hexponent
  · refine ⟨0, bits % 2 ^ f.fractionBits, ?_, by omega, .inl rfl⟩
    rw [hzero] at hsplit
    exact hsplit.symm
  · refine ⟨bits / 2 ^ f.fractionBits - 1, 2 ^ f.fractionBits + bits % 2 ^ f.fractionBits,
      ?_, by omega, .inr (by omega)⟩
    rw [Nat.sub_mul, Nat.one_mul]
    have hle : 2 ^ f.fractionBits ≤ bits / 2 ^ f.fractionBits * 2 ^ f.fractionBits :=
      Nat.le_mul_of_pos_left _ hexponent
    omega

/-- In the row after `k` full rows the grid has the spacing `2 ^ k`.  The end of the row belongs to
it and to the next row. -/
theorem steps_rows {k m : Nat} (hm : m ≤ 2 ^ (f.fractionBits + 1))
    (hk : k = 0 ∨ 2 ^ f.fractionBits ≤ m) :
    f.steps (k * 2 ^ f.fractionBits + m) = m * 2 ^ k := by
  have hpos := Nat.two_pow_pos f.fractionBits
  rw [Nat.pow_succ] at hm
  have hdiv : (k * 2 ^ f.fractionBits + m) / 2 ^ f.fractionBits = k + m / 2 ^ f.fractionBits := by
    rw [Nat.add_comm, Nat.add_mul_div_right _ _ hpos, Nat.add_comm]
  have hmod : (k * 2 ^ f.fractionBits + m) % 2 ^ f.fractionBits = m % 2 ^ f.fractionBits :=
    Nat.mul_add_mod_self_right _ _ _
  simp only [steps, hdiv, hmod]
  rcases Nat.lt_or_ge m (2 ^ f.fractionBits) with hlow | hhigh
  · obtain rfl : k = 0 := hk.resolve_right (by omega)
    simp [Nat.div_eq_of_lt hlow, Nat.mod_eq_of_lt hlow]
  · rcases Nat.lt_or_ge m (2 ^ f.fractionBits * 2) with hinside | hend
    · have hone : m / 2 ^ f.fractionBits = 1 := Nat.div_eq_of_lt_le (by omega) (by omega)
      have hrest : m % 2 ^ f.fractionBits = m - 2 ^ f.fractionBits := by
        rw [Nat.mod_eq_sub_mod hhigh, Nat.mod_eq_of_lt (by omega)]
      rw [hone, hrest, if_neg (by omega), Nat.add_sub_cancel' hhigh]
      rfl
    · -- The fraction is full and carries into the exponent.
      obtain rfl : m = 2 ^ f.fractionBits * 2 := by omega
      rw [Nat.mul_div_cancel_left _ hpos, Nat.mul_mod_right, if_neg (by omega), Nat.add_zero,
        show k + 2 - 1 = k + 1 from rfl, Nat.pow_succ, Nat.mul_assoc, Nat.mul_comm (2 ^ k)]

theorem steps_strictMono : StrictMono f.steps := by
  refine strictMono_nat_of_lt_succ fun bits => ?_
  obtain ⟨k, m, rfl, hm, hk⟩ := f.exists_rows bits
  rw [Nat.add_assoc, f.steps_rows hm.le hk, f.steps_rows hm (hk.imp_right Nat.le_succ_of_le),
    Nat.mul_lt_mul_right (Nat.two_pow_pos k)]
  exact Nat.lt_succ_self m

/-- From the start of the row after `k` full rows on, all points of the grid are multiples of
`2 ^ k`. -/
theorem exists_multiple_or_lt (k bits : Nat) :
    (∃ m, f.steps bits = m * 2 ^ k) ∨ 0 < k ∧ f.steps bits < 2 ^ f.fractionBits * 2 ^ k := by
  obtain ⟨k', m, rfl, hm, hk'⟩ := f.exists_rows bits
  rw [f.steps_rows hm.le hk']
  rcases Nat.lt_or_ge k' k with hlt | hge
  · refine .inr ⟨by omega, ?_⟩
    calc m * 2 ^ k' < 2 ^ (f.fractionBits + 1) * 2 ^ k' :=
          Nat.mul_lt_mul_of_pos_right hm (Nat.two_pow_pos k')
      _ = 2 ^ f.fractionBits * 2 ^ (k' + 1) := by
          rw [Nat.pow_succ, Nat.pow_succ, Nat.mul_assoc, Nat.mul_comm 2]
      _ ≤ 2 ^ f.fractionBits * 2 ^ k :=
          Nat.mul_le_mul_left _ (Nat.pow_le_pow_right (by decide) hlt)
  · refine .inl ⟨m * 2 ^ (k' - k), ?_⟩
    rw [Nat.mul_assoc, ← Nat.pow_add, Nat.sub_add_cancel hge]

theorem magnitude_strictMono : StrictMono f.magnitude := by
  intro a b hab
  have hpow : (0 : ℚ) < 2 ^ f.depth := by positivity
  unfold magnitude
  rw [div_lt_div_iff_of_pos_right hpow]
  exact_mod_cast f.steps_strictMono hab

/-! ## Distances in steps -/

variable {f}

theorem abs_sub_magnitude (q : ℚ) (bits : Nat) :
    |q - f.magnitude bits| = |q * 2 ^ f.depth - f.steps bits| / 2 ^ f.depth := by
  have hpow : (0 : ℚ) < 2 ^ f.depth := by positivity
  rw [eq_div_iff hpow.ne', ← abs_of_pos hpow, ← abs_mul, abs_of_pos hpow, sub_mul, magnitude,
    div_mul_cancel₀ _ hpow.ne']

theorem abs_sub_magnitude_le_iff {q : ℚ} {bits other : Nat} :
    |q - f.magnitude bits| ≤ |q - f.magnitude other| ↔
      |q * 2 ^ f.depth - f.steps bits| ≤ |q * 2 ^ f.depth - f.steps other| := by
  rw [abs_sub_magnitude, abs_sub_magnitude, div_le_div_iff_of_pos_right (by positivity)]

/-- A number that is at least infinity is rounded to it. -/
theorem isNearest_infinity {q : ℚ} (hq : f.magnitude f.infinityBits ≤ q) :
    f.IsNearest q f.infinityBits := by
  have hdistance : ∀ bits ≤ f.infinityBits,
      |q - f.magnitude bits| = q - f.magnitude bits := by
    intro bits hbits
    have hle := f.magnitude_strictMono.monotone hbits
    exact abs_of_nonneg (by linarith)
  refine ⟨le_refl _, ?_, ?_⟩
  · intro other hother
    have hle := f.magnitude_strictMono.monotone hother
    rw [hdistance _ (le_refl _), hdistance _ hother]
    linarith
  · intro other hother hne htie
    have hlt := f.magnitude_strictMono (lt_of_le_of_ne hother hne)
    rw [hdistance _ (le_refl _), hdistance _ hother] at htie
    linarith

/-- A number below half of the smallest positive one is rounded to zero. -/
theorem isNearest_zero {q : ℚ} (hnonneg : 0 ≤ q) (hq : q < f.magnitude 1 / 2) :
    f.IsNearest q 0 := by
  have hzero : f.magnitude 0 = 0 := by simp [magnitude, steps]
  have hother : ∀ other, other ≠ 0 → |q - f.magnitude 0| < |q - f.magnitude other| := by
    intro other hne
    have hone := f.magnitude_strictMono.monotone (Nat.one_le_iff_ne_zero.mpr hne)
    rw [hzero, sub_zero, abs_of_nonneg hnonneg, abs_sub_comm, abs_of_nonneg (by linarith)]
    linarith
  refine ⟨Nat.zero_le _, ?_, fun _ _ _ _ => rfl⟩
  intro other _
  rcases eq_or_ne other 0 with rfl | hne
  · exact le_refl _
  · exact (hother other hne).le

/-- A point between two that are equally far away is nearer than both. -/
theorem abs_sub_lt_of_between {q a b c : ℚ} (hac : a < c) (hcb : c < b)
    (htie : |q - a| = |q - b|) : |q - c| < |q - a| := by
  have hmiddle : q - a = b - q := by
    rcases abs_eq_abs.mp htie with hsame | hopposite
    · linarith
    · linarith
  have hpos : 0 ≤ q - a := by linarith
  rw [abs_of_nonneg hpos, abs_lt]
  constructor
  · linarith
  · linarith

/-- There is only one correct rounding: between two that are equally near and both even there would
be a nearer one. -/
theorem IsNearest.unique {q : ℚ} {bits bits' : Nat} (hbits : f.IsNearest q bits)
    (hbits' : f.IsNearest q bits') : bits = bits' := by
  by_contra hne
  wlog hlt : bits < bits' generalizing bits bits'
  · exact this hbits' hbits (Ne.symm hne) (by omega)
  have htie : |q - f.magnitude bits| = |q - f.magnitude bits'| :=
    le_antisymm (hbits.nearest _ hbits'.le_infinity) (hbits'.nearest _ hbits.le_infinity)
  have heven := hbits.even_of_tie _ hbits'.le_infinity (Ne.symm hne) htie.symm
  have heven' := hbits'.even_of_tie _ hbits.le_infinity hne htie
  -- Both are even, so they are not neighbours.
  have hbetween : bits + 1 < bits' := by omega
  have hnearer := abs_sub_lt_of_between (f.magnitude_strictMono (Nat.lt_succ_self bits))
    (f.magnitude_strictMono hbetween) htie
  exact absurd (hbits.nearest _ (hbetween.le.trans hbits'.le_infinity)) (not_le.mpr hnearer)

/-! ## Rounding a fraction -/

/-- The row that `nearest` chooses for a number of steps: it is below the end of that row, and not
below its start unless the row is the first. -/
theorem shift_bounds (scaled : Nat) {den : Nat} (hden : 0 < den) :
    (scaled / den : ℚ) <
        2 ^ (f.fractionBits + 1) * 2 ^ ((scaled / den).log2 - f.fractionBits) ∧
      ((scaled / den).log2 - f.fractionBits = 0 ∨
        (2 ^ f.fractionBits * 2 ^ ((scaled / den).log2 - f.fractionBits) : ℚ) ≤ scaled / den) := by
  have hpos : (0 : ℚ) < den := by exact_mod_cast hden
  set shift := (scaled / den).log2 - f.fractionBits with hshift
  constructor
  · have hlt : scaled / den < 2 ^ (f.fractionBits + 1) * 2 ^ shift := by
      calc scaled / den < 2 ^ ((scaled / den).log2 + 1) := Nat.lt_log2_self
        _ ≤ 2 ^ (f.fractionBits + 1 + shift) :=
            Nat.pow_le_pow_right (by decide) (by omega)
        _ = 2 ^ (f.fractionBits + 1) * 2 ^ shift := Nat.pow_add _ _ _
    rw [div_lt_iff₀ hpos]
    exact_mod_cast (Nat.div_lt_iff_lt_mul hden).mp hlt
  · rcases Nat.eq_zero_or_pos shift with hzero | hshiftPos
    · exact .inl hzero
    · have hlog : f.fractionBits + shift = (scaled / den).log2 := by omega
      have hne : scaled / den ≠ 0 := by
        intro hzero
        rw [hzero, Nat.log2_zero] at hlog
        omega
      have hle : 2 ^ f.fractionBits * 2 ^ shift ≤ scaled / den := by
        rw [← Nat.pow_add, hlog]
        exact Nat.log2_self_le hne
      refine .inr ?_
      rw [le_div_iff₀ hpos]
      exact_mod_cast (Nat.le_div_iff_mul_le hden).mp hle

/-- Among all patterns, infinite ones included, the chosen row holds the nearest one. -/
theorem nearest_of_row {r : ℚ} {k m : Nat} (hF : 1 ≤ f.fractionBits)
    (hm : m ≤ 2 ^ (f.fractionBits + 1)) (hk : k = 0 ∨ 2 ^ f.fractionBits ≤ m)
    (hr : k = 0 ∨ (2 ^ f.fractionBits * 2 ^ k : ℚ) ≤ r)
    (hhalf : |r / 2 ^ k - m| ≤ 1 / 2) (heven : |r / 2 ^ k - m| = 1 / 2 → m % 2 = 0)
    (other : Nat) (hne : other ≠ k * 2 ^ f.fractionBits + m) :
    |r - f.steps (k * 2 ^ f.fractionBits + m)| ≤ |r - f.steps other| ∧
      (|r - f.steps other| = |r - f.steps (k * 2 ^ f.fractionBits + m)| →
        (k * 2 ^ f.fractionBits + m) % 2 = 0) := by
  have hpow : (0 : ℚ) < 2 ^ k := by positivity
  -- On the row all distances are multiples of one spacing.
  have hscale : ∀ n : Nat, |r - (n * 2 ^ k : Nat)| = |r / 2 ^ k - n| * 2 ^ k := by
    intro n
    rw [← abs_of_pos hpow, ← abs_mul, abs_of_pos hpow, sub_mul, div_mul_cancel₀ _ hpow.ne']
    push_cast
    rfl
  have hsteps := f.steps_rows hm hk
  rcases f.exists_multiple_or_lt k other with ⟨m', hother⟩ | ⟨hpos, hlt⟩
  · -- On the same multiples the significand is the nearest natural number.
    have hm' : m' ≠ m := by
      rintro rfl
      exact hne (f.steps_strictMono.injective (hother.trans hsteps.symm))
    obtain ⟨hle, htie⟩ := abs_sub_le_of_half hhalf hm'
    rw [hsteps, hother, hscale, hscale]
    constructor
    · exact mul_le_mul_of_nonneg_right hle hpow.le
    · intro heq
      have hmod := heven (htie (mul_right_cancel₀ hpow.ne' heq))
      obtain ⟨n, hn⟩ : 2 ∣ 2 ^ f.fractionBits := dvd_pow_self 2 (by omega)
      rw [hn, Nat.add_mod, Nat.mul_left_comm, Nat.mul_mod_right, hmod]
  · -- Below the row, already its first point is nearer.
    have hstart := hr.resolve_left (by omega)
    have hbelow : (f.steps other : ℚ) < 2 ^ f.fractionBits * 2 ^ k := by exact_mod_cast hlt
    have hfirst : |r - f.steps (k * 2 ^ f.fractionBits + m)| ≤ r - 2 ^ f.fractionBits * 2 ^ k := by
      rcases eq_or_ne (2 ^ f.fractionBits) m with rfl | hm'
      · rw [hsteps, abs_of_nonneg (by push_cast; linarith)]
        push_cast
        exact le_refl _
      · have hle := (abs_sub_le_of_half hhalf hm').1
        rw [hsteps, hscale]
        calc |r / 2 ^ k - m| * 2 ^ k ≤ |r / 2 ^ k - (2 ^ f.fractionBits : Nat)| * 2 ^ k :=
              mul_le_mul_of_nonneg_right hle hpow.le
          _ = |r - (2 ^ f.fractionBits * 2 ^ k : Nat)| := (hscale _).symm
          _ = r - 2 ^ f.fractionBits * 2 ^ k := by
              push_cast
              exact abs_of_nonneg (by linarith)
    have hdistance : |r - f.steps other| = r - f.steps other := abs_of_nonneg (by linarith)
    constructor
    · linarith
    · intro heq
      linarith

/-- Rounding a fraction gives its correct rounding. -/
theorem isNearest_nearest (hF : 1 ≤ f.fractionBits) (num : Nat) {den : Nat} (hden : 0 < den) :
    f.IsNearest (num / den) (f.nearest num den) := by
  have hpos : (0 : ℚ) < den := by exact_mod_cast hden
  have hscaled : (num / den : ℚ) * 2 ^ f.depth = (num * 2 ^ f.depth : Nat) / den := by
    push_cast
    ring
  unfold nearest
  set scaled := num * 2 ^ f.depth
  obtain ⟨hupper, hlower⟩ := shift_bounds (f := f) scaled hden
  set k := (scaled / den).log2 - f.fractionBits
  have hpow : (0 : ℚ) < 2 ^ k := by positivity
  obtain ⟨hhalf, heven⟩ := roundDiv_toEven scaled (Nat.mul_pos hden (Nat.two_pow_pos k))
  set m := roundDiv .toEven scaled (den * 2 ^ k)
  have hquotient : (scaled / (den * 2 ^ k : Nat) : ℚ) = scaled / den / 2 ^ k := by
    push_cast
    rw [div_div]
  rw [hquotient] at hhalf heven
  have hbounds := abs_le.mp hhalf
  -- The significand may be rounded up to the end of its row, which is the start of the next.
  have hm : m ≤ 2 ^ (f.fractionBits + 1) := by
    have hlt : (scaled / den / 2 ^ k : ℚ) < 2 ^ (f.fractionBits + 1) :=
      (div_lt_iff₀ hpow).mpr hupper
    have h : (m : ℚ) < (2 ^ (f.fractionBits + 1) + 1 : Nat) := by
      push_cast
      linarith
    exact Nat.lt_succ_iff.mp (by exact_mod_cast h)
  have hk : k = 0 ∨ 2 ^ f.fractionBits ≤ m := by
    refine hlower.imp_right fun hle => ?_
    have hge : (2 ^ f.fractionBits : ℚ) ≤ scaled / den / 2 ^ k := (le_div_iff₀ hpow).mpr hle
    have h : ((2 ^ f.fractionBits : Nat) : ℚ) < (m + 1 : Nat) := by
      push_cast
      linarith
    exact Nat.lt_succ_iff.mp (by exact_mod_cast h)
  have hrow := nearest_of_row hF hm hk hlower hhalf heven
  rcases Nat.lt_or_ge f.infinityBits (k * 2 ^ f.fractionBits + m) with hgt | hle
  · rw [Nat.min_eq_right hgt.le]
    refine isNearest_infinity ?_
    rw [magnitude, div_le_iff₀ (by positivity), hscaled]
    -- The nearest point of the row is above infinity, so the fraction cannot be below it.
    have hcloser := (hrow _ hgt.ne).1
    have hlt : (f.steps f.infinityBits : ℚ) < f.steps (k * 2 ^ f.fractionBits + m) := by
      exact_mod_cast f.steps_strictMono hgt
    by_contra hbelow
    rw [abs_of_nonpos (by linarith), abs_of_nonpos (by linarith)] at hcloser
    linarith
  · rw [Nat.min_eq_left hle]
    refine ⟨hle, ?_, ?_⟩
    · intro other _
      rw [abs_sub_magnitude_le_iff, hscaled]
      rcases eq_or_ne other (k * 2 ^ f.fractionBits + m) with rfl | hne
      · exact le_refl _
      · exact (hrow other hne).1
    · intro other _ hne htie
      rw [abs_sub_magnitude, abs_sub_magnitude, hscaled,
        div_left_inj' (by positivity)] at htie
      exact (hrow other hne).2 htie

/-! ## Reading a decimal -/

/-- Infinity stands for the power of two after the last finite row. -/
theorem magnitude_infinityBits (hE : 1 ≤ f.exponentBits) (hF : 1 ≤ f.fractionBits) :
    f.magnitude f.infinityBits = 2 ^ 2 ^ (f.exponentBits - 1) := by
  have hpow : 2 ^ f.exponentBits = 2 * 2 ^ (f.exponentBits - 1) := by
    rw [← Nat.pow_succ', Nat.succ_eq_add_one, Nat.sub_add_cancel hE]
  have hpos := Nat.two_pow_pos (f.exponentBits - 1)
  have hrow : f.infinityBits =
      (2 ^ f.exponentBits - 2) * 2 ^ f.fractionBits + 2 ^ f.fractionBits := by
    rw [infinityBits, ← Nat.succ_mul]
    congr 1
    omega
  rw [magnitude, hrow, f.steps_rows (Nat.pow_le_pow_right (by decide) (Nat.le_succ _))
    (.inr (le_refl _)), div_eq_iff (by positivity), depth, ← pow_add]
  push_cast
  rw [← pow_add]
  congr 1
  omega

theorem magnitude_one : f.magnitude 1 = 1 / 2 ^ f.depth := by
  have hsteps := f.steps_rows (k := 0) (m := 1) Nat.one_le_two_pow (.inl rfl)
  rw [Nat.zero_mul, Nat.zero_add] at hsteps
  rw [magnitude, hsteps]
  norm_num

theorem eight_pow_le_ten_pow (k : Nat) : (2 : ℚ) ^ (3 * k) ≤ 10 ^ k := by
  rw [pow_mul]
  exact pow_le_pow_left₀ (by norm_num) (by norm_num) k

/-- Reading a decimal gives its correct rounding, also where the answer needs no power of ten. -/
theorem isNearest_nearestDecimal (hE : 1 ≤ f.exponentBits) (hF : 1 ≤ f.fractionBits)
    (significand : Nat) (exponent : ℤ) :
    f.IsNearest (significand * 10 ^ exponent) (f.nearestDecimal significand exponent) := by
  cases exponent with
  | ofNat k =>
      simp only [nearestDecimal, Int.ofNat_eq_natCast, zpow_natCast]
      by_cases hne : significand = 0
      · rw [if_pos hne, hne, Nat.cast_zero, zero_mul]
        exact isNearest_zero (le_refl _) (by rw [magnitude_one]; positivity)
      · rw [if_neg hne]
        by_cases hlarge : 2 ^ (f.exponentBits - 1) ≤ significand.log2 + 3 * k
        · rw [if_pos hlarge]
          -- The decimal is beyond the largest number by its length alone.
          refine isNearest_infinity ?_
          rw [magnitude_infinityBits hE hF]
          calc (2 : ℚ) ^ 2 ^ (f.exponentBits - 1) ≤ 2 ^ (significand.log2 + 3 * k) :=
                pow_le_pow_right₀ (by norm_num) hlarge
            _ = 2 ^ significand.log2 * 2 ^ (3 * k) := pow_add _ _ _
            _ ≤ significand * 10 ^ k :=
                mul_le_mul (by exact_mod_cast Nat.log2_self_le hne) (eight_pow_le_ten_pow k)
                  (by positivity) (by positivity)
        · have hnearest := f.isNearest_nearest hF (significand * 10 ^ k) Nat.one_pos
          rw [if_neg hlarge]
          simpa using hnearest
  | negSucc k =>
      simp only [nearestDecimal, zpow_negSucc, ← div_eq_mul_inv]
      by_cases hsmall : significand.log2 + f.depth + 2 ≤ 3 * (k + 1)
      · rw [if_pos hsmall]
        -- It is below half of the least number by its exponent alone.
        refine isNearest_zero (by positivity) ?_
        rw [magnitude_one, div_div, div_lt_div_iff₀ (by positivity) (by positivity), one_mul]
        have hlt : (significand : ℚ) < 2 ^ (significand.log2 + 1) := by
          exact_mod_cast Nat.lt_log2_self
        calc (significand * (2 ^ f.depth * 2) : ℚ)
            < 2 ^ (significand.log2 + 1) * (2 ^ f.depth * 2) :=
              mul_lt_mul_of_pos_right hlt (by positivity)
          _ = 2 ^ (significand.log2 + f.depth + 2) := by ring
          _ ≤ 2 ^ (3 * (k + 1)) := pow_le_pow_right₀ (by norm_num) hsmall
          _ ≤ 10 ^ (k + 1) := eight_pow_le_ten_pow _
      · have hten : 0 < 10 ^ (k + 1) := Nat.pow_pos (by decide)
        have hnearest := f.isNearest_nearest hF significand hten
        rw [if_neg hsmall]
        simpa using hnearest

end BinaryFormat

end PNorm
