import PNorm.Proofs.Norm.Calls

/-!
# The ways of a norm

An exponent has one of two ways, the fixed and the general one, or none.  On either way
a norm adds up powers from left to right, starting with zero, and takes a root of the
sum (`compute_eq_root`).  What holds of all norms can so be shown of one power, of one
sum and of one root.

`exponent_cases` sorts the exponents by what they stand for, and the lemmas beside it
say which way each sort has under which policy.  `Session.CallsNorm` joins a source text
to the vector and the exponent that the norm is called with.

The properties that are shown in this way are the subjects of
`PNorm.Proofs.Norm.Nan`, `PNorm.Proofs.Norm.Zeros` and `PNorm.Proofs.Norm.Signs`.  Each of
them is a property of one power that sums and roots pass on, and each is carried to
calls in a session by `Session.CallsNorm.evaluate`.
-/

namespace PNorm

namespace Norm

variable {α : Type} [FloatArith α]

/-! ## Exponents and policies -/

/-- A finite exponent above one that is not whole. -/
def Fractional (p : α) : Prop :=
  ∃ q, (FloatArith.exactValue p).rational? = some q ∧ 1 < q ∧ q.den ≠ 1

/-- NaN, the infinities and what is below one are accepted under no policy. -/
theorem classify_of_below_one {p : α}
    (hp : ∀ q, (FloatArith.exactValue p).rational? = some q → q < 1) (policy : ExponentPolicy) :
    Exponent.classify policy p = none := by
  rw [classify_eq, Option.map_eq_none_iff, Option.eq_none_iff_forall_ne_some]
  intro q hq
  obtain ⟨hvalue, hone, -⟩ := (accepted?_eq_some_iff policy p q).mp hq
  exact absurd (hp q hvalue) (not_lt.mpr hone)

/-- The way of a whole exponent does not depend on the policy, however large it is. -/
theorem classify_of_whole {p : α} {q : ℚ} (hp : (FloatArith.exactValue p).rational? = some q)
    (hone : 1 ≤ q) (hwhole : q.den = 1) (policy : ExponentPolicy) :
    Exponent.classify policy p = some (if q ≤ 32 then .fixed q.num.toNat else .general p) := by
  have haccepted := (accepted?_eq_some_iff policy p q).mpr ⟨hp, hone, fun _ => hwhole⟩
  simp only [classify_eq, haccepted, Option.map_some, hwhole, true_and]

/-- A fractional exponent takes the general way, where it is accepted. -/
theorem classify_of_fractional {p : α} (hp : Fractional p) :
    Exponent.classify .integerOnly p = none ∧
      Exponent.classify .allowFractional p = some (.general p) := by
  obtain ⟨q, hvalue, hone, hden⟩ := hp
  constructor
  · rw [classify_eq, Option.map_eq_none_iff, Option.eq_none_iff_forall_ne_some]
    intro q' hq'
    obtain ⟨hvalue', -, hwhole⟩ := (accepted?_eq_some_iff _ p q').mp hq'
    rw [hvalue] at hvalue'
    cases hvalue'
    exact hden (hwhole rfl)
  · have haccepted := (accepted?_eq_some_iff .allowFractional p q).mpr
      ⟨hvalue, hone.le, fun h => by cases h⟩
    simp only [classify_eq, haccepted, Option.map_some, hden, false_and, if_false]

/-- The three kinds of exponents. -/
theorem exponent_cases (p : α) :
    (∀ q, (FloatArith.exactValue p).rational? = some q → q < 1) ∨
      (∃ q, (FloatArith.exactValue p).rational? = some q ∧ 1 ≤ q ∧ q.den = 1) ∨
      Fractional p := by
  cases hvalue : (FloatArith.exactValue p).rational? with
  | none => exact .inl fun q hq => by cases hq
  | some q =>
      rcases lt_or_ge q 1 with hlt | hge
      · refine .inl fun q' hq' => ?_
        cases hq'
        exact hlt
      · by_cases hden : q.den = 1
        · exact .inr (.inl ⟨q, rfl, hge, hden⟩)
        · refine .inr (.inr ⟨q, hvalue, lt_of_le_of_ne hge ?_, hden⟩)
          rintro rfl
          exact hden rfl

/-! ## Accepted exponents -/

/-- An exponent that a norm is computed with. -/
inductive Accepted : Exponent α → Prop
  | fixed {n : Nat} (hpos : 1 ≤ n) (hle : n ≤ Exponent.maxFixed) : Accepted (.fixed n)
  | general {p : α} (hp : (FloatArith.exactValue p).isAtLeastOne = true) : Accepted (.general p)

theorem accepted_of_classify {policy : ExponentPolicy} {p : α} {exponent : Exponent α}
    (h : Exponent.classify policy p = some exponent) : Accepted exponent := by
  rw [classify_eq, Option.map_eq_some_iff] at h
  obtain ⟨q, hq, rfl⟩ := h
  obtain ⟨hvalue, hone, -⟩ := (accepted?_eq_some_iff policy p q).mp hq
  by_cases hfixed : q.den = 1 ∧ q ≤ 32
  · rw [if_pos hfixed]
    have hnum : (q.num : ℚ) = q := (Rat.den_eq_one_iff q).mp hfixed.1
    have hlow : 1 ≤ q.num := by exact_mod_cast hnum ▸ hone
    have hhigh : q.num ≤ 32 := by exact_mod_cast hnum ▸ hfixed.2
    exact .fixed (by omega) (by rw [Exponent.maxFixed]; omega)
  · rw [if_neg hfixed]
    exact .general ((FloatArith.exactValue p).isAtLeastOne_iff.mpr ⟨q, hvalue, hone⟩)

/-- The exponent that need not be written. -/
theorem accepted_two : Accepted (.fixed 2 : Exponent α) :=
  .fixed (by decide) (by decide)

theorem accepted_of_exponent? {policy : ExponentPolicy} {index : Nat}
    {operands : List (Operand α)} {exponent : Exponent α}
    (h : exponent? policy index operands = some exponent) : Accepted exponent := by
  unfold exponent? at h
  split at h
  · cases h
    exact accepted_two
  · obtain ⟨p, -, hp⟩ := Option.bind_eq_some_iff.mp h
    exact accepted_of_classify hp
  · cases h

/-! ## Powers, sums and roots -/

/-- The power of one element. -/
def power : Exponent α → α → α
  | .fixed n, x => natPow x n
  | .general p, x => Arith.pow x p

/-- The root of a sum. -/
def root : Exponent α → α → α
  | .fixed n, total => fixedRoot n total
  | .general p, total => Arith.pow total (Arith.one / p)

/-- On every way a norm is the root of a sum of powers. -/
theorem compute_eq_root {exponent : Exponent α} (h : Accepted exponent) (values : List α) :
    compute values exponent = root exponent (sum (values.map (power exponent))) := by
  rw [← foldl_eq_sum]
  cases h with
  | fixed hpos hle => rw [compute, if_pos ⟨hpos, hle⟩, fixed, root]; rfl
  | general hp => rfl

/-- What each round of repeated squaring keeps holds at its end. -/
theorem natPowFrom_invariant {P : α → α → Nat → Prop}
    (hround : ∀ result base n, 0 < n → P result base n →
      P (if n % 2 = 1 then result * base else result)
        (if n / 2 = 0 then base else base * base) (n / 2))
    {result base : α} {n : Nat} (h : P result base n) :
    ∃ last, P (natPowFrom result base n) last 0 := by
  induction n using Nat.strong_induction_on generalizing result base with
  | h n ih =>
      rcases Nat.eq_zero_or_pos n with rfl | hpos
      · rw [natPowFrom_zero]
        exact ⟨base, h⟩
      · rw [natPowFrom_round _ _ hpos.ne']
        exact ih (n / 2) (Nat.div_lt_self hpos (by decide)) (hround result base n hpos h)

/-! ## Calls -/

/-- A call answers the computed norm, or NaN if there is no accepted exponent.  The vector takes no
part in the choice of the exponent. -/
theorem apply_cons (policy : ExponentPolicy) (index : Nat) (values : List α)
    (rest : List (Operand α)) :
    apply policy index (.vector values :: rest) =
      ((exponent? policy index (.vector [] :: rest)).map (compute values)).getD FloatArith.nan := by
  have hexponent : exponent? policy index (.vector values :: rest) =
      exponent? policy index (.vector [] :: rest) := by
    rcases index with _ | _ | index <;> rfl
  rw [apply, hexponent]
  cases exponent? policy index (.vector [] :: rest) <;> rfl

/-- The norm of a vector, with an exponent or without. -/
def value (policy : ExponentPolicy) (values : List α) : Option α → α
  | none => apply policy 0 [.vector values]
  | some p => apply policy 1 [.vector values, .scalar p]

/-- The value of a call with an exponent is decided by the way of the exponent. -/
theorem value_some (policy : ExponentPolicy) (values : List α) (p : α) :
    value policy values (some p) =
      ((Exponent.classify policy p).map (compute values)).getD FloatArith.nan :=
  apply_cons policy 1 values [.scalar p]

end Norm

namespace Session

variable {α : Type} [FloatArith α]

/-- A source text that calls the norm, which the session has under a policy, with a vector and
perhaps an exponent. -/
structure CallsNorm (s : Session α) (policy : ExponentPolicy) (source : String) (values : List α)
    (p : Option α) : Prop where
  function : s.function? "norm" = some (Norm.function Norm.signature policy)
  call : ∃ args, Call.parse source = .ok ⟨"norm", args⟩ ∧
    s.operands args = .ok (.vector values :: p.toList.map .scalar)

theorem CallsNorm.evaluate {s : Session α} {policy : ExponentPolicy} {source : String}
    {values : List α} {p : Option α} (h : s.CallsNorm policy source values p) :
    s.evaluate source = .ok (Norm.value policy values p) := by
  obtain ⟨args, hparse, hoperands⟩ := h.call
  simp only [Session.evaluate, hparse, evaluateCall, h.function, hoperands]
  cases p <;> rfl

end Session

end PNorm
