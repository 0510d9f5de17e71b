import PNorm.Norm.Checks
import PNorm.Proofs.Norm.Routines
import PNorm.Proofs.Number.Machine

/-!
# The checks find the class of an exponent

An exponent is refused, or it has a routine, or it takes the general way.  `Refused` and
`IsTabulated` say which by the value of the exponent alone, and the general way is for
all that is neither.  No exponent is both (`Refused.not_isTabulated`).

The five checks of `PNorm.Norm.Checks` know the exponent by what the machine answers.
Each check is told from the value here, for the three kinds of exponents that
`exponent_cases` gives, and so every exponent comes out in its class (`placed_check`).
Whole exponents are where the checks overlap: they pass the first three whatever their
size, and those beyond the words have no word that could be compared with the table.

The conversion to words is a parameter.  What is asked of it is `ConvertsToWords`, and
`MachineFloat.toWord?` has that in both types.
-/

namespace PNorm

namespace Exponent

/-! ## Classes -/

section Classes

variable {α : Type} [FloatArith α] {policy : ExponentPolicy} {p : α}

/-- Why an exponent is not accepted. -/
inductive Refused (policy : ExponentPolicy) (p : α) : Prop
  | nan (h : FloatArith.exactValue p = .nan)
  | infinite {negative : Bool} (h : FloatArith.exactValue p = .infinite negative)
  | below {q : ℚ} (hvalue : (FloatArith.exactValue p).rational? = some q) (hlt : q < 1)
  | fractional (hpolicy : policy = .integerOnly) {q : ℚ}
      (hvalue : (FloatArith.exactValue p).rational? = some q) (hden : q.den ≠ 1)

/-- An exponent that is the whole number `n`, for which there is a routine. -/
structure IsTabulated (p : α) (n : Nat) : Prop where
  value : (FloatArith.exactValue p).rational? = some (n : ℚ)
  pos : 1 ≤ n
  le : n ≤ maxFixed

theorem IsTabulated.unique {n n' : Nat} (h : IsTabulated p n) (h' : IsTabulated p n') : n = n' := by
  have hvalue := h.value.symm.trans h'.value
  rw [Option.some.injEq] at hvalue
  exact_mod_cast hvalue

theorem Refused.not_isTabulated (h : Refused policy p) (n : Nat) : ¬ IsTabulated p n := by
  intro htable
  have hvalue := htable.value
  cases h with
  | nan h => rw [h] at hvalue; cases hvalue
  | infinite h => rw [h] at hvalue; cases hvalue
  | below hq hlt =>
      rw [hq, Option.some.injEq] at hvalue
      rw [hvalue] at hlt
      exact absurd htable.pos (not_le.mpr (by exact_mod_cast hlt))
  | fractional hpolicy hq hden =>
      rw [hq, Option.some.injEq] at hvalue
      rw [hvalue] at hden
      exact hden (Rat.den_natCast n)

/-- The answer that belongs to the class of an exponent. -/
inductive Placed (policy : ExponentPolicy) (p : α) : Option (Exponent α) → Prop
  | refused (h : Refused policy p) : Placed policy p none
  | fixed {n : Nat} (h : IsTabulated p n) : Placed policy p (some (.fixed n))
  | general (hrefused : ¬ Refused policy p) (htable : ∀ n, ¬ IsTabulated p n) :
      Placed policy p (some (.general p))

theorem Placed.eq_none_iff {answer : Option (Exponent α)} (h : Placed policy p answer) :
    answer = none ↔ Refused policy p := by
  cases h with
  | refused h => exact iff_of_true rfl h
  | fixed h => exact iff_of_false nofun fun hrefused => hrefused.not_isTabulated _ h
  | general hrefused htable => exact iff_of_false nofun hrefused

theorem Placed.eq_fixed_iff {answer : Option (Exponent α)} (h : Placed policy p answer) (n : Nat) :
    answer = some (.fixed n) ↔ IsTabulated p n := by
  cases h with
  | refused h => exact iff_of_false nofun (h.not_isTabulated n)
  | general hrefused htable => exact iff_of_false nofun (htable n)
  | fixed h =>
      constructor
      · rintro ⟨⟩
        exact h
      · intro h'
        rw [h.unique h']

theorem Placed.eq_general_iff {answer : Option (Exponent α)} (h : Placed policy p answer) (q : α) :
    answer = some (.general q) ↔ q = p ∧ ¬ Refused policy p ∧ ∀ n, ¬ IsTabulated p n := by
  cases h with
  | refused h => exact iff_of_false nofun fun hq => hq.2.1 h
  | fixed h => exact iff_of_false nofun fun hq => hq.2.2 _ h
  | general hrefused htable =>
      constructor
      · rintro ⟨⟩
        exact ⟨rfl, hrefused, htable⟩
      · rintro ⟨rfl, -⟩
        rfl

/-- The table has the routine of the exponent. -/
theorem IsTabulated.routine?_new {n : Nat} (h : IsTabulated p n) (signature : Signature)
    (policy : ExponentPolicy) :
    (Norm.Prepared.new signature policy : Norm.Prepared α).routine? (USize.ofNat n) =
      some (Norm.fixed n) := by
  have hle := h.le
  rw [maxFixed] at hle
  have hword : (USize.ofNat n).toNat = n := USize.toNat_ofNat_of_lt_32 (by omega)
  rw [Norm.Prepared.routine?_new, hword, if_pos ⟨h.pos, h.le⟩]

/-- What is not refused is finite, not below one and, if it has to be, whole. -/
theorem not_refused {q : ℚ} (hvalue : (FloatArith.exactValue p).rational? = some q) (hone : 1 ≤ q)
    (hwhole : policy = .integerOnly → q.den = 1) : ¬ Refused policy p := by
  intro h
  cases h with
  | nan h => rw [h] at hvalue; cases hvalue
  | infinite h => rw [h] at hvalue; cases hvalue
  | below hq hlt =>
      rw [hq, Option.some.injEq] at hvalue
      exact absurd hone (not_le.mpr (hvalue ▸ hlt))
  | fractional hpolicy hq hden =>
      rw [hq, Option.some.injEq] at hvalue
      exact hden (hvalue ▸ hwhole hpolicy)

private theorem refused_of_below_one
    (hp : ∀ q, (FloatArith.exactValue p).rational? = some q → q < 1) : Refused policy p := by
  cases hvalue : FloatArith.exactValue p with
  | nan => exact .nan hvalue
  | infinite negative => exact .infinite hvalue
  | finite negative steps depth =>
      have hrational := congrArg ExactValue.rational? hvalue
      exact .below hrational (hp _ hrational)

/-- The last two checks find the routine of a whole number, and none for a number that is no
word. -/
theorem ofWord_of_whole {toWord? : α → Option USize} (hwords : ConvertsToWords toWord?)
    {n : Nat} (hvalue : (FloatArith.exactValue p).rational? = some (n : ℚ)) :
    ofWord p (toWord? p) = if n ≤ maxFixed then .fixed n else .general p := by
  have hsize : maxFixed < USize.size := Nat.lt_of_lt_of_le (by decide) USize.le_size
  have hword := hwords.map_toNat_of_whole hvalue
  by_cases hn : n < USize.size
  · rw [if_pos hn, Option.map_eq_some_iff] at hword
    obtain ⟨w, hconverted, hw⟩ := hword
    rw [hconverted, ofWord, hw]
  · rw [if_neg hn, Option.map_eq_none_iff] at hword
    rw [hword, ofWord, if_neg (by omega)]

end Classes

/-! ## Checks -/

section Checks

variable {α : Type} [MachineFloat α] [PackedArith α] [PackedMachine α]
  {toWord? : α → Option USize} {policy : ExponentPolicy} {p : α}

/-- The first two checks stop what is not finite and what is below one. -/
theorem check_of_below_one
    (hp : ∀ q, (FloatArith.exactValue p).rational? = some q → q < 1) :
    check toWord? policy p = none := by
  refine if_pos ?_
  rw [Bool.or_eq_true, Bool.not_eq_true']
  cases hfinite : MachineFloat.isFinite p with
  | false => exact .inl rfl
  | true =>
      obtain ⟨q, hvalue⟩ := (PackedMachine.isFinite_iff p).mp hfinite
      exact .inr ((PackedMachine.lt_one_iff hvalue).mpr (hp q hvalue))

/-- Everything else passes them, and the third check tells whole numbers from the others. -/
theorem check_of_one_le {q : ℚ} (hvalue : (FloatArith.exactValue p).rational? = some q)
    (hone : 1 ≤ q) :
    check toWord? policy p =
      if q.den = 1 then some (ofWord p (toWord? p)) else ofFraction policy p := by
  have hfinite : MachineFloat.isFinite p = true := (PackedMachine.isFinite_iff p).mpr ⟨q, hvalue⟩
  have hlt : MachineFloat.lt p Arith.one = false := by
    rw [Bool.eq_false_iff, Ne, PackedMachine.lt_one_iff hvalue]
    exact not_lt.mpr hone
  have hwhole := PackedMachine.beq_fract_iff hvalue hone
  rw [check, hfinite, hlt, Bool.not_true, Bool.or_self, if_neg Bool.false_ne_true]
  by_cases hden : q.den = 1
  · rw [if_pos hden, hwhole.mpr hden, Bool.not_true, if_neg Bool.false_ne_true]
  · rw [if_neg hden, Bool.eq_false_iff.mpr (mt hwhole.mp hden), Bool.not_false, if_pos rfl]

theorem check_of_whole (hwords : ConvertsToWords toWord?) {n : Nat}
    (hvalue : (FloatArith.exactValue p).rational? = some (n : ℚ)) (hpos : 1 ≤ n) :
    check toWord? policy p = some (if n ≤ maxFixed then .fixed n else .general p) := by
  rw [check_of_one_le hvalue (by exact_mod_cast hpos), if_pos (Rat.den_natCast n),
    ofWord_of_whole hwords hvalue]

/-- What is not a whole number is not converted at all. -/
theorem check_congr_of_not_whole
    (hp : ∀ n : Nat, (FloatArith.exactValue p).rational? ≠ some (n : ℚ))
    (other? : α → Option USize) : check toWord? policy p = check other? policy p := by
  rcases Norm.exponent_cases p with hbelow | ⟨q, hvalue, hone, hden⟩ | ⟨q, hvalue, hone, hden⟩
  · rw [check_of_below_one hbelow, check_of_below_one hbelow]
  · obtain ⟨n, rfl⟩ := ExactValue.exists_natCast_eq (zero_le_one.trans hone) hden
    exact absurd hvalue (hp n)
  · rw [check_of_one_le hvalue hone.le, check_of_one_le hvalue hone.le, if_neg hden, if_neg hden]

/-- Every exponent comes out in its class. -/
theorem placed_check (hwords : ConvertsToWords toWord?) (policy : ExponentPolicy) (p : α) :
    Placed policy p (check toWord? policy p) := by
  rcases Norm.exponent_cases p with hbelow | ⟨q, hvalue, hone, hden⟩ | ⟨q, hvalue, hone, hden⟩
  · rw [check_of_below_one hbelow]
    exact .refused (refused_of_below_one hbelow)
  · -- a whole number
    obtain ⟨n, rfl⟩ := ExactValue.exists_natCast_eq (zero_le_one.trans hone) hden
    have hpos : 1 ≤ n := by exact_mod_cast hone
    rw [check_of_whole hwords hvalue hpos]
    by_cases hle : n ≤ Exponent.maxFixed
    · rw [if_pos hle]
      exact .fixed ⟨hvalue, hpos, hle⟩
    · rw [if_neg hle]
      refine .general (not_refused hvalue hone fun _ => hden) fun n' htable => hle ?_
      have hcast := hvalue.symm.trans htable.value
      rw [Option.some.injEq, Nat.cast_inj] at hcast
      exact hcast ▸ htable.le
  · rw [check_of_one_le hvalue hone.le, if_neg hden]
    cases policy with
    | integerOnly => exact .refused (.fractional rfl hvalue hden)
    | allowFractional =>
        refine .general (not_refused hvalue hone.le nofun) fun n htable => hden ?_
        have hcast := hvalue.symm.trans htable.value
        rw [Option.some.injEq] at hcast
        rw [hcast, Rat.den_natCast]

/-- The checks find what the bits of the exponent say. -/
theorem check_eq_classify (hwords : ConvertsToWords toWord?) (policy : ExponentPolicy) (p : α) :
    check toWord? policy p = classify policy p := by
  rcases Norm.exponent_cases p with hbelow | ⟨q, hvalue, hone, hden⟩ | hfractional
  · rw [check_of_below_one hbelow, Norm.classify_of_below_one hbelow]
  · obtain ⟨n, rfl⟩ := ExactValue.exists_natCast_eq (zero_le_one.trans hone) hden
    have hle : (n : ℚ) ≤ 32 ↔ n ≤ maxFixed := by
      rw [maxFixed]
      exact_mod_cast Iff.rfl
    rw [check_of_whole hwords hvalue (by exact_mod_cast hone),
      Norm.classify_of_whole hvalue hone hden policy, Rat.num_natCast, Int.toNat_natCast]
    simp only [hle]
  · obtain ⟨hinteger, hallowed⟩ := Norm.classify_of_fractional hfractional
    obtain ⟨q, hvalue, hone, hden⟩ := hfractional
    rw [check_of_one_le hvalue hone.le, if_neg hden]
    cases policy with
    | integerOnly => exact hinteger.symm
    | allowFractional => exact hallowed.symm

end Checks

/-! ## Both types -/

/-- What the checks do with an exponent. -/
structure ExactlyClassified {α : Type} [MachineFloat α] (toWord? : α → Option USize)
    (policy : ExponentPolicy) (p : α) : Prop where
  same : check toWord? policy p = classify policy p
  refused : check toWord? policy p = none ↔ Refused policy p
  fixed : ∀ n, check toWord? policy p = some (.fixed n) ↔ IsTabulated p n
  /-- The exponent of a routine is got back from it. -/
  back : ∀ n, check toWord? policy p = some (.fixed n) → Arith.ofNat n = p
  general : ∀ q, check toWord? policy p = some (.general q) ↔
    q = p ∧ ¬ Refused policy p ∧ ∀ n, ¬ IsTabulated p n
  /-- The table has the routine that is looked up. -/
  routine : ∀ signature n, check toWord? policy p = some (.fixed n) →
    (Norm.Prepared.new signature policy : Norm.Prepared α).routine? (USize.ofNat n) =
      some (Norm.fixed n)
  /-- Only whole numbers are converted, so there is nothing to cut off. -/
  converted : (∀ n : Nat, (FloatArith.exactValue p).rational? ≠ some (n : ℚ)) →
    ∀ other? : α → Option USize, check toWord? policy p = check other? policy p
  /-- A whole number becomes the word that it is.  What is beyond the words becomes none, not the
  largest one. -/
  word : ∀ n : Nat, (FloatArith.exactValue p).rational? = some (n : ℚ) →
    (toWord? p).map USize.toNat = if n < USize.size then some n else none

theorem exactlyClassified {α : Type} [MachineFloat α] [PackedArith α] [PackedMachine α]
    {toWord? : α → Option USize} (hwords : ConvertsToWords toWord?) (policy : ExponentPolicy)
    (p : α) : ExactlyClassified toWord? policy p := by
  have hplaced := placed_check hwords policy p
  refine {
    same := check_eq_classify hwords policy p
    refused := hplaced.eq_none_iff
    fixed := hplaced.eq_fixed_iff
    back := ?_
    general := hplaced.eq_general_iff
    routine := ?_
    converted := check_congr_of_not_whole
    word := fun n hvalue => hwords.map_toNat_of_whole hvalue }
  · intro n hn
    have htable := (hplaced.eq_fixed_iff n).mp hn
    exact PackedMachine.ofNat_of_whole htable.value htable.pos
  · intro signature n hn
    exact ((hplaced.eq_fixed_iff n).mp hn).routine?_new signature policy

/-- **Exponents are classified exactly.**  Of the numbers of both types the checks refuse NaN, the
infinities, what is below one and, unless fractions are allowed, what is not whole; they give the
whole numbers from 1 to 32 their routine, and everything else the general way with the exponent as
it is.  The conversion to words may be any that does what it is documented to do, and comparing with
the ends of the words before the machine converts is one. -/
theorem exponents_are_classified_exactly (policy : ExponentPolicy) :
    (∀ toWord? : Float → Option USize, ConvertsToWords toWord? →
      ∀ p, ExactlyClassified toWord? policy p) ∧
    (∀ toWord? : Float32 → Option USize, ConvertsToWords toWord? →
      ∀ p, ExactlyClassified toWord? policy p) ∧
    ConvertsToWords (MachineFloat.toWord? : Float → Option USize) ∧
    ConvertsToWords (MachineFloat.toWord? : Float32 → Option USize) := by
  refine ⟨?_, ?_, ?_, ?_⟩
  · intro toWord? hwords
    exact @exactlyClassified Float _ (packedDouble Arith.pow) machineDouble _ hwords policy
  · intro toWord? hwords
    exact @exactlyClassified Float32 _ (packedSingle Arith.pow) machineSingle _ hwords policy
  · exact @convertsToWords_toWord? Float _ (packedDouble Arith.pow) machineDouble
  · exact @convertsToWords_toWord? Float32 _ (packedSingle Arith.pow) machineSingle

/-- With the conversion that compares first: the last exponent that has a routine; the double from
which on not all whole numbers are doubles; and the numbers of both types that are the first to be
no word in any case. -/
theorem exponents_at_the_ends :
    check MachineFloat.toWord? .integerOnly (32 : Float) = some (.fixed 32) ∧
      check MachineFloat.toWord? .integerOnly (9007199254740992 : Float) =
        some (.general 9007199254740992) ∧
      check MachineFloat.toWord? .integerOnly (18446744073709551616 : Float) =
        some (.general 18446744073709551616) ∧
      check MachineFloat.toWord? .integerOnly (18446744073709551616 : Float32) =
        some (.general 18446744073709551616) := by
  obtain ⟨hdoubles, hsingles, hdouble, hsingle⟩ := exponents_are_classified_exactly .integerOnly
  refine ⟨?_, ?_, ?_, ?_⟩
  · rw [(hdoubles _ hdouble 32).same]
    decide +kernel
  · rw [(hdoubles _ hdouble 9007199254740992).same]
    decide +kernel
  · rw [(hdoubles _ hdouble 18446744073709551616).same]
    decide +kernel
  · rw [(hsingles _ hsingle 18446744073709551616).same]
    decide +kernel

end Exponent

end PNorm
