import PNorm.Proofs.Norm.Ways
import PNorm.Proofs.Number.Negated

/-!
# Signs in a vector

The norm with an even exponent does not see the signs of the elements.  That is no
matter of exact arithmetic: the powers of `x` and `-x` are computed by the same
multiplications, and all that is needed is that a minus sign can be taken out of each
of them, which is what `HasDistribNeg` says.

Repeated squaring multiplies the base with itself before it uses it again, so the sign
of the base is gone after one round.  Only the result of that round can have taken it
in, if the exponent is odd, and then it keeps it (`natPowFrom_neg`).  So the power of
`-x` is that of `x` for an even exponent, and the negated one for an odd exponent.
-/

namespace PNorm

namespace Norm

/-- The second list is the first with some of its elements negated. -/
def SignsChanged {α : Type} [Neg α] (values changed : List α) : Prop :=
  List.Forall₂ (fun x y => y = x ∨ y = -x) values changed

/-- An even number up to the last that has a routine, or no exponent, which means two. -/
inductive EvenExponent {α : Type} [FloatArith α] : Option α → Prop
  | absent : EvenExponent none
  | present {p : α} {n : Nat} (hp : (FloatArith.exactValue p).rational? = some (n : ℚ))
      (heven : Even n) (hlow : 2 ≤ n) (hhigh : n ≤ Exponent.maxFixed) : EvenExponent (some p)

/-- An even exponent has a routine under every policy. -/
theorem classify_even {α : Type} [FloatArith α] {p : α} (hp : EvenExponent (some p))
    (policy : ExponentPolicy) :
    ∃ n, Exponent.classify policy p = some (.fixed n) ∧ Even n ∧ 1 ≤ n ∧ n ≤ Exponent.maxFixed := by
  cases hp with
  | @present _ n hvalue heven hlow hhigh =>
      have hone : (1 : ℚ) ≤ n := by exact_mod_cast (by omega : 1 ≤ n)
      have hlast : (n : ℚ) ≤ 32 := by exact_mod_cast hhigh
      refine ⟨n, ?_, heven, by omega, hhigh⟩
      rw [classify_of_whole hvalue hone (Rat.den_natCast n) policy, if_pos hlast, Rat.num_natCast,
        Int.toNat_natCast]

/-! ## Powers -/

section Powers

variable {α : Type} [Arith α] [HasDistribNeg α]

/-- A minus sign of the result stays there. -/
theorem natPowFrom_neg (result base : α) (n : Nat) :
    natPowFrom (-result) base n = -natPowFrom result base n := by
  induction n using Nat.strong_induction_on generalizing result base with
  | h n ih =>
      by_cases hn : n = 0
      · rw [hn, natPowFrom_zero, natPowFrom_zero]
      · have hlt : n / 2 < n := Nat.div_lt_self (Nat.pos_of_ne_zero hn) (by decide)
        have hresult : (if n % 2 = 1 then -result * base else -result) =
            -(if n % 2 = 1 then result * base else result) := by
          split
          · exact neg_mul result base
          · rfl
        rw [natPowFrom_round _ _ hn, natPowFrom_round _ _ hn, hresult, ih _ hlt]

/-- A minus sign of the base is gone after one round, unless the result takes it in. -/
theorem natPowFrom_neg_base (result base : α) {n : Nat} (hn : n ≠ 0) :
    natPowFrom result (-base) n =
      natPowFrom (if n % 2 = 1 then -(result * base) else result)
        (if n / 2 = 0 then base else base * base) (n / 2) := by
  rw [natPowFrom_round _ _ hn, mul_neg, neg_mul_neg]
  by_cases hlast : n / 2 = 0
  · -- No round is left, so the base with its sign does not count any more.
    rw [hlast, natPowFrom_zero, natPowFrom_zero]
  · rw [if_neg hlast, if_neg hlast]

theorem natPow_neg_of_even (x : α) {n : Nat} (hn : Even n) : natPow (-x) n = natPow x n := by
  by_cases hzero : n = 0
  · rw [hzero, natPow_zero, natPow_zero]
  · have hmod : ¬ n % 2 = 1 := by
      rw [Nat.even_iff.mp hn]
      decide
    rw [natPow, natPow, natPowFrom_neg_base _ _ hzero, natPowFrom_round _ x hzero, if_neg hmod,
      if_neg hmod]

private theorem natPow_neg_of_odd (x : α) {n : Nat} (hn : Odd n) : natPow (-x) n = -natPow x n := by
  have hmod : n % 2 = 1 := Nat.odd_iff.mp hn
  have hne : n ≠ 0 := by
    rintro rfl
    cases hmod
  rw [natPow, natPow, natPowFrom_neg_base _ _ hne, natPowFrom_round _ x hne, if_pos hmod,
    if_pos hmod, natPowFrom_neg]

/-- Even powers are the same, element by element. -/
theorem map_natPow_of_signsChanged {values changed : List α} (h : SignsChanged values changed)
    {n : Nat} (hn : Even n) : changed.map (natPow · n) = values.map (natPow · n) := by
  induction h with
  | nil => rfl
  | cons hsign _ ih =>
      rw [List.map_cons, List.map_cons, ih]
      rcases hsign with rfl | rfl
      · rfl
      · rw [natPow_neg_of_even _ hn]

end Powers

/-! ## Norms -/

section Norms

variable {α : Type} [FloatArith α] [HasDistribNeg α]

theorem fixed_of_signsChanged {values changed : List α} (h : SignsChanged values changed) {n : Nat}
    (hn : Even n) : fixed n changed = fixed n values := by
  rw [fixed, fixed, foldl_eq_sum, foldl_eq_sum, map_natPow_of_signsChanged h hn]

theorem compute_of_signsChanged {values changed : List α} (h : SignsChanged values changed)
    {n : Nat} (heven : Even n) (hlow : 1 ≤ n) (hhigh : n ≤ Exponent.maxFixed) :
    compute changed (.fixed n) = compute values (.fixed n) := by
  rw [compute, compute, if_pos ⟨hlow, hhigh⟩, if_pos ⟨hlow, hhigh⟩, fixed_of_signsChanged h heven]

/-- The operands behind the vector and the position of a call with an exponent or without. -/
theorem apply_of_signsChanged (policy : ExponentPolicy) {values changed : List α}
    (h : SignsChanged values changed) (rest : List (Operand α)) :
    apply policy 0 (.vector changed :: rest) = apply policy 0 (.vector values :: rest) ∧
      ∀ p, EvenExponent (some p) →
        apply policy 1 (.vector changed :: .scalar p :: rest) =
          apply policy 1 (.vector values :: .scalar p :: rest) := by
  constructor
  · rw [apply_cons, apply_cons]
    exact compute_of_signsChanged h even_two (by decide) (by decide)
  · intro p hp
    obtain ⟨n, hn, heven, hlow, hhigh⟩ := classify_even hp policy
    have hexponent : exponent? policy 1 (.vector [] :: .scalar p :: rest) = some (.fixed n) := hn
    rw [apply_cons, apply_cons, hexponent]
    exact compute_of_signsChanged h heven hlow hhigh

theorem value_of_signsChanged (policy : ExponentPolicy) {values changed : List α}
    (h : SignsChanged values changed) {p : Option α} (hp : EvenExponent p) :
    value policy changed p = value policy values p := by
  obtain ⟨habsent, hpresent⟩ := apply_of_signsChanged policy h []
  cases p with
  | none => exact habsent
  | some p => exact hpresent p hp

end Norms

/-- What is said of powers and norms over numbers of type `α`.  Equality of numbers is equality of
bits, all NaNs being one. -/
structure IgnoresSigns (α : Type) [FloatArith α] [HasDistribNeg α] : Prop where
  /-- Powers, for every exponent that there is. -/
  even_power : ∀ (x : α) (n : Nat), Even n → natPow (-x) n = natPow x n
  odd_power : ∀ (x : α) (n : Nat), Odd n → natPow (-x) n = -natPow x n
  /-- The routine of an even exponent, also of one beyond the table. -/
  routine : ∀ (n : Nat) (values changed : List α), Even n → SignsChanged values changed →
    fixed n changed = fixed n values
  /-- A call of the norm itself, without exponent. -/
  direct : ∀ (policy : ExponentPolicy) (values changed : List α) (rest : List (Operand α)),
    SignsChanged values changed →
      apply policy 0 (.vector changed :: rest) = apply policy 0 (.vector values :: rest)
  /-- A call of the norm itself, with an exponent. -/
  direct_exponent : ∀ (policy : ExponentPolicy) (values changed : List α) (p : α)
    (rest : List (Operand α)), EvenExponent (some p) → SignsChanged values changed →
      apply policy 1 (.vector changed :: .scalar p :: rest) =
        apply policy 1 (.vector values :: .scalar p :: rest)
  /-- Two calls with the same exponent or with none, in one session or in two. -/
  session : ∀ (s s' : Session α) (policy : ExponentPolicy) (source source' : String)
    (values changed : List α) (p : Option α), s.CallsNorm policy source values p →
      s'.CallsNorm policy source' changed p → EvenExponent p → SignsChanged values changed →
        s'.evaluate source' = s.evaluate source

/-- **Even exponents ignore signs.**  Wherever a minus sign can be taken out of a product, an even
power of a number and of its negative are the same and an odd one is negated, and no norm with an
even exponent up to 32 or with none sees the signs of the elements.  In both types of numbers it
can be taken out, whatever the numbers are. -/
theorem even_exponents_ignore_signs :
    (∀ (α : Type) [FloatArith α] [HasDistribNeg α], IgnoresSigns α) ∧
      IgnoresSigns Float ∧ IgnoresSigns Float32 := by
  have hsigns : ∀ (α : Type) [FloatArith α] [HasDistribNeg α], IgnoresSigns α := by
    intro α _ _
    refine ⟨fun x _ => natPow_neg_of_even x, fun x _ => natPow_neg_of_odd x, ?_, ?_, ?_, ?_⟩
    · intro n values changed heven hchanged
      exact fixed_of_signsChanged hchanged heven
    · intro policy values changed rest hchanged
      exact (apply_of_signsChanged policy hchanged rest).1
    · intro policy values changed p rest heven hchanged
      exact (apply_of_signsChanged policy hchanged rest).2 p heven
    · intro s s' policy source source' values changed p hcall hcall' heven hchanged
      rw [hcall.evaluate, hcall'.evaluate, value_of_signsChanged policy hchanged heven]
  exact ⟨hsigns, hsigns Float, hsigns Float32⟩

private theorem rational?_of_whole (n k : Nat) :
    (ExactValue.finite false (n * 2 ^ k) k).rational? = some (n : ℚ) := by
  have hpow : (2 : ℚ) ^ k ≠ 0 := pow_ne_zero k two_ne_zero
  simp only [ExactValue.rational?, Bool.false_eq_true, if_false, one_mul, Option.some.injEq]
  push_cast
  exact mul_div_cancel_right₀ (n : ℚ) hpow

/-- The fourth norm of `[3, -0, 4]` and of `[-3, 0, -4]`, the norm without an exponent, which is
five for both, and a cube. -/
theorem fourth_norm_without_signs :
    let values : List Float := [3.0, -0.0, 4.0]
    let changed : List Float := [-3.0, 0.0, -4.0]
    let s := (Host.empty.run [.addBuiltins .integerOnly] : Host Float).session
    s.CallsNorm .integerOnly "norm([3,-0,4],4)" values (some 4.0) ∧
      s.CallsNorm .integerOnly "norm([-3,0,-4],4)" changed (some 4.0) ∧
      EvenExponent (some (4.0 : Float)) ∧ SignsChanged values changed ∧
      s.evaluate "norm([-3,0,-4],4)" = s.evaluate "norm([3,-0,4],4)" ∧
      s.evaluate "norm([3,-0,4])" = .ok 5.0 ∧ s.evaluate "norm([-3,0,-4])" = .ok 5.0 ∧
      Odd 3 ∧ natPow (-3.0 : Float) 3 = -natPow 3.0 3 := by
  obtain ⟨-, hdouble, -⟩ := even_exponents_ignore_signs
  intro values changed s
  have hnorm : s.function? "norm" = some (function signature .integerOnly) :=
    function?_norm .integerOnly []
  have hcall : s.CallsNorm .integerOnly "norm([3,-0,4],4)" values (some 4.0) :=
    ⟨hnorm, [.vector values, .number 4.0], by decide +kernel, rfl⟩
  have hcall' : s.CallsNorm .integerOnly "norm([-3,0,-4],4)" changed (some 4.0) :=
    ⟨hnorm, [.vector changed, .number 4.0], by decide +kernel, rfl⟩
  have hplain : s.CallsNorm .integerOnly "norm([3,-0,4])" values none :=
    ⟨hnorm, [.vector values], by decide +kernel, rfl⟩
  have hplain' : s.CallsNorm .integerOnly "norm([-3,0,-4])" changed none :=
    ⟨hnorm, [.vector changed], by decide +kernel, rfl⟩
  -- The exponent is read as the number four.
  have hfour : (FloatArith.exactValue (4.0 : Float)).rational? = some ((4 : Nat) : ℚ) := by
    have hvalue : FloatArith.exactValue (4.0 : Float) = .finite false (4 * 2 ^ 1074) 1074 := by
      decide +kernel
    rw [hvalue, rational?_of_whole]
  have heven : EvenExponent (some (4.0 : Float)) := .present hfour ⟨2, rfl⟩ (by decide) (by decide)
  have hchanged : SignsChanged values changed := by
    refine .cons (.inr rfl) (.cons (.inr ?_) (.cons (.inr rfl) .nil))
    decide +kernel
  -- One of the two plain norms is computed, and the other is the same.
  have hfive : s.evaluate "norm([3,-0,4])" = .ok 5.0 := by
    have hvalue : value .integerOnly values none = 5.0 := by decide +kernel
    rw [hplain.evaluate, hvalue]
  have hodd : Odd 3 := ⟨1, rfl⟩
  refine ⟨hcall, hcall', heven, hchanged, ?_, hfive, ?_, hodd, hdouble.odd_power 3.0 3 hodd⟩
  · exact hdouble.session s s _ _ _ _ _ _ hcall hcall' heven hchanged
  · exact (hdouble.session s s _ _ _ _ _ _ hplain hplain' .absent hchanged).trans hfive

end Norm

end PNorm
