import PNorm.Number.Shortest
import PNorm.Proofs.Number.Rounding

/-!
# The shortest decimal reads back

`isNearest_shortest` says that the double nearest to the shortest decimal of a
finite value is that value, to the bit.

The search looks at bits: it takes a decimal only if reading it gives the bits of
the value.  What `IsNearest` adds is that reading is a matter of the number alone
(`isNearest_bits`), so that the trailing zeros that are taken off at the end
change nothing, and that the whole expansion, which is left when the search finds
nothing, reads back as well.
-/

namespace PNorm

/-- The nearest integer is one of the two neighbours. -/
theorem roundDiv_eq_or (tie : Tie) (num den : Nat) :
    roundDiv tie num den = num / den ∨ roundDiv tie num den = num / den + 1 := by
  unfold roundDiv
  split
  · exact .inl rfl
  · exact .inr rfl
  · cases tie with
    | up => exact .inr rfl
    | toEven =>
        rcases Nat.mod_two_eq_zero_or_one (num / den) with heven | hodd
        · exact .inl (by simp only [heven, Nat.add_zero])
        · exact .inr (by simp only [hodd])

namespace BinaryFormat

variable {f : BinaryFormat}

/-- The value of a bit pattern rounds to the pattern. -/
theorem isNearest_magnitude {bits : Nat} (hbits : bits ≤ f.infinityBits) :
    f.IsNearest (f.magnitude bits) bits := by
  refine ⟨hbits, ?_, ?_⟩
  · intro other _
    rw [sub_self, abs_zero]
    exact abs_nonneg _
  · intro other _ hne htie
    rw [sub_self, abs_zero, abs_eq_zero, sub_eq_zero] at htie
    exact absurd (f.magnitude_strictMono.injective htie).symm hne

/-- The steps of a bit pattern are rounded to the pattern. -/
theorem nearest_steps (hF : 1 ≤ f.fractionBits) {bits : Nat} (hbits : bits ≤ f.infinityBits) :
    f.nearest (f.steps bits) (2 ^ f.depth) = bits := by
  have hnearest := f.isNearest_nearest hF (f.steps bits) (Nat.two_pow_pos f.depth)
  push_cast at hnearest
  exact hnearest.unique (isNearest_magnitude hbits)

end BinaryFormat

namespace Decimal

/-- The number that a decimal is. -/
def value (d : Decimal) : ℚ :=
  d.significand * 10 ^ d.exponent

theorem value_ofSteps (steps depth : Nat) : (ofSteps steps depth).value = steps / 2 ^ depth := by
  have hten : (10 : ℚ) ^ depth = 2 ^ depth * 5 ^ depth := by
    rw [← mul_pow]
    norm_num
  rw [value, ofSteps, zpow_neg, zpow_natCast, hten]
  push_cast
  field_simp

/-- Trailing zeros say nothing about the number. -/
theorem value_normalize (d : Decimal) : d.normalize.value = d.value := by
  induction d using normalize.induct with
  | case1 d hzero =>
      rw [normalize, dif_pos hzero]
      simp [value, hzero]
  | case2 d hzero hmod ih =>
      rw [normalize, dif_neg hzero, if_pos hmod, ih]
      have hdiv : (d.significand : ℚ) = (d.significand / 10 : Nat) * 10 := by
        exact_mod_cast (Nat.div_mul_cancel (Nat.dvd_of_mod_eq_zero hmod)).symm
      rw [value, value, hdiv, zpow_add_one₀ (by norm_num)]
      ring
  | case3 d hzero hmod => rw [normalize, dif_neg hzero, if_neg hmod]

variable {f : BinaryFormat}

theorem isNearest_bits (hE : 1 ≤ f.exponentBits) (hF : 1 ≤ f.fractionBits) (d : Decimal) :
    f.IsNearest d.value (d.bits f) :=
  f.isNearest_nearestDecimal hE hF d.significand d.exponent

/-- A neighbour that is taken reads back. -/
theorem bits_of_neighbour? {tie : Tie} {target dropped : Nat} {d found : Decimal}
    (h : neighbour? f tie target d dropped = some found) : found.bits f = target := by
  revert h
  fun_cases neighbour? f tie target d dropped with
  | case1 unit lower upper nearer hupper hlower =>
      -- Both neighbours read back, and the nearer one is one of them.
      intro h
      rw [← Option.some.inj h]
      simp only [nearer]
      rcases roundDiv_eq_or tie d.significand (10 ^ dropped) with hround | hround
      · rw [hround]
        exact of_decide_eq_true hlower
      · rw [hround]
        exact of_decide_eq_true hupper
  | case2 unit lower upper hupper hlower =>
      intro h
      rw [← Option.some.inj h]
      exact of_decide_eq_true hlower
  | case3 unit lower upper hupper hlower =>
      intro h
      rw [← Option.some.inj h]
      exact of_decide_eq_true hupper
  | case4 => nofun

/-- **The shortest decimal reads back.**  It is a number whose nearest bit pattern is the one that
it was chosen for. -/
theorem isNearest_shortest (hE : 1 ≤ f.exponentBits) (hF : 1 ≤ f.fractionBits) (tie : Tie)
    {bits : Nat} (hbits : bits ≤ f.infinityBits) :
    f.IsNearest (shortest f tie (f.steps bits) f.depth).value bits := by
  simp only [shortest, value_normalize, BinaryFormat.nearest_steps hF hbits]
  cases hfound : (List.range _).findSome? _ with
  | none =>
      rw [Option.getD_none, value_ofSteps]
      exact BinaryFormat.isNearest_magnitude hbits
  | some found =>
      obtain ⟨kept, -, hkept⟩ := List.exists_of_findSome?_eq_some hfound
      have hread := isNearest_bits hE hF found
      rwa [bits_of_neighbour? hkept] at hread

end Decimal

end PNorm
