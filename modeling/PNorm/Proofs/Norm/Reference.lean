import PNorm.Norm.Basic
import PNorm.Proofs.Number.Exact
import PNorm.Proofs.Number.Unit

/-!
# What the norm is

`reference` states the norm of a vector without the ways of computing it: the
exponent is read as the rational number it is, and the five cases are told apart
by that number alone.

`PNorm.Norm.Basic` computes the same value by other means.  It looks at the bits
of the exponent, takes one routine for all whole exponents up to 32, and raises to
a power by repeated squaring, which starts with one.  `apply_eq_reference` joins
the two for every position and every operand list.  The exponents one and two are
where they differ on paper: there repeated squaring multiplies by one what the
reference takes as it is, which is why `LawfulOne` is needed.

The comparison has two halves.  An exponent that is accepted is one of a rational
number that is at least one, and `classify` sorts it by that number
(`classify_eq`); and for each class the routine is the case of the reference
(`compute_of_one_le`).  Neither half knows of sessions.  How a call gets to
`Norm.apply` is the subject of `PNorm.Proofs.Norm.Calls`.
-/

namespace PNorm

/-- Arithmetic in which multiplying by one changes nothing. -/
class LawfulOne (α : Type) [Arith α] : Prop where
  one_mul (x : α) : Arith.one * x = x

instance : LawfulOne Float := ⟨one_mul_double⟩

instance : LawfulOne Float32 := ⟨one_mul_single⟩

namespace Norm

section Reference

variable {α : Type} [FloatArith α]

/-- The sum from left to right, starting with positive zero. -/
def sum (values : List α) : α :=
  values.foldl (fun total x => total + x) Arith.zero

/-- The exponent as a rational number, if the policy accepts it: it is finite, at least one and,
unless fractions are allowed, whole. -/
def accepted? (policy : ExponentPolicy) (p : α) : Option ℚ :=
  (FloatArith.exactValue p).rational?.filter fun q =>
    1 ≤ q ∧ (policy = .integerOnly → q.den = 1)

/-- The norm with the accepted exponent `p`, which is the rational number `q`. -/
def ofAccepted (values : List α) (p : α) (q : ℚ) : α :=
  if q = 1 then sum values
  else if q = 2 then Arith.sqrt (sum (values.map fun x => x * x))
  else if q.den = 1 ∧ q ≤ 32 then
    let n := q.num.toNat
    Arith.pow (sum (values.map fun x => natPow x n)) (Arith.one / Arith.ofNat n)
  else Arith.pow (sum (values.map fun x => Arith.pow x p)) (Arith.one / p)

/-- The norm of a vector with an exponent, which is two if there is none. -/
def reference (policy : ExponentPolicy) (values : List α) : Option α → α
  | none => Arith.sqrt (sum (values.map fun x => x * x))
  | some p =>
      match accepted? policy p with
      | none => FloatArith.nan
      | some q => ofAccepted values p q

end Reference

/-! ## The way of an exponent -/

section Classify

variable {α : Type} [FloatArith α]

theorem accepted?_eq_some_iff (policy : ExponentPolicy) (p : α) (q : ℚ) :
    accepted? policy p = some q ↔
      (FloatArith.exactValue p).rational? = some q ∧ 1 ≤ q ∧
        (policy = .integerOnly → q.den = 1) := by
  simp only [accepted?, Option.filter_eq_some_iff, decide_eq_true_eq]

/-- An exponent is classified by its rational value. -/
theorem classify_eq (policy : ExponentPolicy) (p : α) :
    Exponent.classify policy p = (accepted? policy p).map fun q =>
      if q.den = 1 ∧ q ≤ 32 then .fixed q.num.toNat else .general p := by
  have hone := (FloatArith.exactValue p).isAtLeastOne_iff
  simp only [Exponent.classify, accepted?]
  cases hvalue : (FloatArith.exactValue p).rational? with
  | none =>
      rw [if_neg (by rw [hone, hvalue]; simp)]
      rfl
  | some q =>
      rw [hvalue] at hone
      by_cases hq : 1 ≤ q
      · rw [if_pos (hone.mpr ⟨q, rfl, hq⟩)]
        cases hnatural : (FloatArith.exactValue p).natural? with
        | some n =>
            have hqn := (ExactValue.natural?_eq_some_iff hvalue hq n).mp hnatural
            subst hqn
            have hle : (n : ℚ) ≤ 32 ↔ n ≤ Exponent.maxFixed := by
              rw [Exponent.maxFixed]
              exact_mod_cast Iff.rfl
            simp only [Option.filter, hq, Rat.den_natCast, implies_true, and_self, decide_true,
              if_true, Option.map_some, true_and, hle, Rat.num_natCast, Int.toNat_natCast]
            split <;> rfl
        | none =>
            have hden := (ExactValue.natural?_eq_none_iff hvalue hq).mp hnatural
            cases policy with
            | integerOnly => simp [Option.filter, hq, hden]
            | allowFractional => simp [Option.filter, hq, hden]
      · rw [if_neg (by rw [hone]; simpa using hq)]
        simp [Option.filter, hq]

end Classify

/-! ## The value -/

section Value

variable {α : Type} [FloatArith α]

theorem foldl_eq_sum (f : α → α) (values : List α) :
    values.foldl (fun total x => total + f x) Arith.zero = sum (values.map f) := by
  rw [sum, List.foldl_map]

private theorem fixed_of_two_lt {n : Nat} (hn : 2 < n) (values : List α) :
    fixed n values =
      Arith.pow (sum (values.map fun x => natPow x n)) (Arith.one / Arith.ofNat n) := by
  rw [fixed, foldl_eq_sum]
  unfold fixedRoot
  split
  · omega
  · omega
  · rfl

variable [LawfulOne α]

theorem natPow_one (x : α) : natPow x 1 = x := by
  rw [natPow, natPowFrom]
  simp [LawfulOne.one_mul]

theorem natPow_two (x : α) : natPow x 2 = x * x := by
  rw [natPow, natPowFrom]
  simp only [OfNat.ofNat_ne_zero, ↓reduceDIte]
  rw [natPowFrom]
  simp [LawfulOne.one_mul]

private theorem fixed_one (values : List α) : fixed 1 values = sum values := by
  simp only [fixed, fixedRoot, natPow_one, sum]

theorem fixed_two (values : List α) :
    fixed 2 values = Arith.sqrt (sum (values.map fun x => x * x)) := by
  simp only [fixed, fixedRoot, natPow_two, foldl_eq_sum]

/-- The computation of an accepted exponent gives the norm. -/
theorem compute_of_one_le (values : List α) (p : α) {q : ℚ} (hq : 1 ≤ q) :
    compute values (if q.den = 1 ∧ q ≤ 32 then .fixed q.num.toNat else .general p) =
      ofAccepted values p q := by
  by_cases hfixed : q.den = 1 ∧ q ≤ 32
  · obtain ⟨hden, hle⟩ := hfixed
    obtain ⟨n, rfl⟩ := ExactValue.exists_natCast_eq (zero_le_one.trans hq) hden
    have hn₁ : 1 ≤ n := by exact_mod_cast hq
    have hn₂ : n ≤ Exponent.maxFixed := by
      rw [Exponent.maxFixed]
      exact_mod_cast hle
    have hone : (n : ℚ) = 1 ↔ n = 1 := by exact_mod_cast Iff.rfl
    have htwo : (n : ℚ) = 2 ↔ n = 2 := by exact_mod_cast Iff.rfl
    simp only [ofAccepted, hden, hle, and_self, if_true, Rat.num_natCast, Int.toNat_natCast,
      compute, hn₁, hn₂, hone, htwo]
    by_cases h₁ : n = 1
    · rw [if_pos h₁, h₁]
      exact fixed_one values
    · rw [if_neg h₁]
      by_cases h₂ : n = 2
      · rw [if_pos h₂, h₂]
        exact fixed_two values
      · rw [if_neg h₂]
        exact fixed_of_two_lt (by omega) values
  · have hone : q ≠ 1 := by
      rintro rfl
      exact hfixed ⟨rfl, by norm_num⟩
    have htwo : q ≠ 2 := by
      rintro rfl
      exact hfixed ⟨rfl, by norm_num⟩
    rw [if_neg hfixed, ofAccepted, if_neg hone, if_neg htwo, if_neg hfixed, compute, general,
      foldl_eq_sum]

/-- A vector without an exponent, and anything after it. -/
theorem apply_vector (policy : ExponentPolicy) (values : List α) (rest : List (Operand α)) :
    apply policy 0 (.vector values :: rest) = reference policy values none :=
  fixed_two values

/-- A vector with an exponent, and anything after them. -/
theorem apply_vector_scalar (policy : ExponentPolicy) (values : List α) (p : α)
    (rest : List (Operand α)) :
    apply policy 1 (.vector values :: .scalar p :: rest) = reference policy values (some p) := by
  have hexponent : exponent? policy 1 (.vector values :: .scalar p :: rest) =
      Exponent.classify policy p := rfl
  simp only [apply, List.head?_cons, Option.bind_some, Operand.vector?, hexponent, classify_eq,
    reference]
  cases haccepted : accepted? policy p with
  | none => rfl
  | some q =>
      obtain ⟨_, hq, _⟩ := (accepted?_eq_some_iff policy p q).mp haccepted
      exact compute_of_one_le values p hq

end Value

end Norm

end PNorm
