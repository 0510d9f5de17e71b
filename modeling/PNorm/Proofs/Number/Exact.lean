import Mathlib.Tactic.Linarith
import Mathlib.Tactic.Positivity
import PNorm.Number.Binary

/-!
# The rational number behind an exact value

An `ExactValue` keeps a finite value as a count of steps.  Here it is read as the
rational number that it is, and the two tests that exponents go through are
restated about that number: whether it is at least one, and which natural number
it is.

The tests work on the count and on the width of a step, and never divide.  They are
compared with the rational number once, here, and every later argument about
exponents is one about rational numbers.
-/

namespace PNorm.ExactValue

theorem exists_natCast_eq {q : ℚ} (hq : 0 ≤ q) (hden : q.den = 1) : ∃ n : Nat, q = n := by
  refine ⟨q.num.toNat, ?_⟩
  rw [← Int.cast_natCast, Int.toNat_of_nonneg (Rat.num_nonneg.mpr hq)]
  exact ((Rat.den_eq_one_iff q).mp hden).symm

/-- The rational number that a finite value is.  Both zeros are zero. -/
def rational? : ExactValue → Option ℚ
  | .finite negative steps depth => some ((if negative then -1 else 1) * (steps / 2 ^ depth))
  | _ => none

theorem isAtLeastOne_iff (value : ExactValue) :
    value.isAtLeastOne = true ↔ ∃ q, value.rational? = some q ∧ 1 ≤ q := by
  cases value with
  | nan => simp [isAtLeastOne, rational?]
  | infinite negative => simp [isAtLeastOne, rational?]
  | finite negative steps depth =>
      have hpow : (0 : ℚ) < 2 ^ depth := by positivity
      cases negative with
      | true =>
          have hnonneg : (0 : ℚ) ≤ steps / 2 ^ depth := by positivity
          simp only [isAtLeastOne, rational?, Bool.false_eq_true, Option.some.injEq, false_iff]
          intro h
          obtain ⟨q, rfl, hq⟩ := h
          simp only [if_true, neg_one_mul] at hq
          linarith
      | false =>
          simp only [isAtLeastOne, rational?, Option.some.injEq, Bool.false_eq_true, if_false,
            one_mul, exists_eq_left', decide_eq_true_eq]
          rw [one_le_div hpow]
          exact_mod_cast Iff.rfl

/-- The natural number that a value of at least one is equal to is found exactly if there is one. -/
theorem natural?_eq_some_iff {value : ExactValue} {q : ℚ} (hvalue : value.rational? = some q)
    (hq : 1 ≤ q) (n : Nat) : value.natural? = some n ↔ q = n := by
  cases value with
  | nan => cases hvalue
  | infinite negative => cases hvalue
  | finite negative steps depth =>
      have hpow : (0 : ℚ) < 2 ^ depth := by positivity
      have hne : (2 ^ depth : ℚ) ≠ 0 := hpow.ne'
      cases negative with
      | true =>
          have hnonneg : (0 : ℚ) ≤ steps / 2 ^ depth := by positivity
          simp only [rational?, if_true, neg_one_mul, Option.some.injEq] at hvalue
          linarith
      | false =>
          simp only [rational?, Bool.false_eq_true, if_false, one_mul, Option.some.injEq] at hvalue
          rw [← hvalue, div_eq_iff hne]
          have hcast : (steps : ℚ) = n * 2 ^ depth ↔ steps = n * 2 ^ depth := by
            exact_mod_cast Iff.rfl
          rw [hcast, natural?]
          constructor
          · intro h
            by_cases hmod : steps % 2 ^ depth = 0
            · rw [if_pos hmod] at h
              cases h
              exact (Nat.div_mul_cancel (Nat.dvd_of_mod_eq_zero hmod)).symm
            · rw [if_neg hmod] at h
              cases h
          · rintro rfl
            rw [if_pos (Nat.mul_mod_left _ _), Nat.mul_div_cancel _ (Nat.two_pow_pos depth)]

/-- Otherwise the value is not whole. -/
theorem natural?_eq_none_iff {value : ExactValue} {q : ℚ} (hvalue : value.rational? = some q)
    (hq : 1 ≤ q) : value.natural? = none ↔ q.den ≠ 1 := by
  rw [Option.eq_none_iff_forall_ne_some]
  simp only [ne_eq, natural?_eq_some_iff hvalue hq]
  constructor
  · intro hnone hden
    obtain ⟨n, hn⟩ := exists_natCast_eq (zero_le_one.trans hq) hden
    exact hnone n hn
  · rintro hden n rfl
    exact hden (Rat.den_natCast n)

end PNorm.ExactValue
