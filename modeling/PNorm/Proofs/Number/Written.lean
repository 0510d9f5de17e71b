import PNorm.Number.Layout
import PNorm.Proofs.Call.Grammar
import PNorm.Proofs.Number.Shortest

/-!
# Written decimals are decimals of the grammar

A decimal that is written is an unsigned number of the grammar, and it says the
same number: `unsigned_writePositional` for digits in full, where the point may
fall in front of the digits, behind them or between them,
`unsigned_writeScientific` for one digit before the point and an exponent, and
`unsigned_writeFixed` for a fixed number of places.

The text and the number are found together.  A lemma about writing does not name the
significand and the exponent that the grammar reads, since zeros may have been put
in; it says that there are some and that they make the value of the decimal.  The
same value is rounded to the same double (`Numeral.Rounds`), which is all that is
asked of them.
-/

namespace PNorm

open Grammar

/-! ## Digits -/

theorem digits_append {digits digits' : List Char} (hdigits : Digits digits)
    (hdigits' : Digits digits') : Digits (digits ++ digits') := by
  intro c hc
  rcases List.mem_append.mp hc with h | h
  · exact hdigits c h
  · exact hdigits' c h

theorem digits_zeros (n : Nat) : Digits (List.replicate n '0') := by
  intro c hc
  rw [List.eq_of_mem_replicate hc]
  decide

theorem digits_toDigits (n : Nat) : Digits (Nat.toDigits 10 n) :=
  fun _ hc => Nat.isDigit_of_mem_toDigits (by decide) (by decide) hc

namespace Decimal

theorem digits_ne_nil (d : Decimal) : d.digits ≠ [] := Nat.toDigits_ne_nil

theorem ofDigitChars_digits (d : Decimal) : Nat.ofDigitChars 10 d.digits 0 = d.significand :=
  Nat.ofDigitChars_ten_toDigits

/-- Zeros in front of the digits change nothing. -/
theorem ofDigitChars_padded (n : Nat) (d : Decimal) :
    Nat.ofDigitChars 10 (List.replicate n '0' ++ d.digits) 0 = d.significand := by
  rw [Nat.ofDigitChars_append, Nat.ofDigitChars_replicate_zero, Nat.mul_zero, ofDigitChars_digits]

theorem digits_padded (n : Nat) (d : Decimal) : Digits (List.replicate n '0' ++ d.digits) :=
  digits_append (digits_zeros n) (digits_toDigits d.significand)

theorem unsigned_whole {digits : List Char} (hdigits : Digits digits) (hne : digits ≠ []) :
    Unsigned digits (Nat.ofDigitChars 10 digits 0) 0 := by
  have htext := Unsigned.mk (.whole hne hdigits) .absent
  simpa using htext

/-- Digits with a point somewhere behind the first of them. -/
theorem unsigned_pointed {digits : List Char} (hdigits : Digits digits) (hne : digits ≠ [])
    {whole : Nat} (hwhole : whole ≠ 0) :
    Unsigned (digits.take whole ++ '.' :: digits.drop whole) (Nat.ofDigitChars 10 digits 0)
      (-(digits.length - whole : Nat)) := by
  have hfront : digits.take whole ≠ [] := by
    rw [ne_eq, List.take_eq_nil_iff, not_or]
    exact ⟨hwhole, hne⟩
  have hmantissa : Mantissa (digits.take whole ++ '.' :: digits.drop whole) (digits.take whole)
      (digits.drop whole) :=
    .pointed hfront (fun c hc => hdigits c (List.mem_of_mem_take hc))
      (fun c hc => hdigits c (List.mem_of_mem_drop hc))
  have htext := Unsigned.mk hmantissa .absent
  rwa [List.append_nil, List.take_append_drop, List.length_drop, zero_sub] at htext

/-- A point and a zero behind digits change nothing. -/
theorem unsigned_pointZero {digits : List Char} (hdigits : Digits digits) (hne : digits ≠ []) :
    Unsigned (digits ++ ['.', '0']) (10 * Nat.ofDigitChars 10 digits 0) (-1) := by
  have htext := Unsigned.mk (.pointed hne hdigits (digits_zeros 1)) .absent
  rw [Nat.ofDigitChars_append, Nat.ofDigitChars_replicate_zero, pow_one, List.append_nil] at htext
  exact htext

/-- Digits say the same number whether a point is kept behind them or not. -/
private theorem unsigned_keepsPoint (keepsPoint : Bool) {digits : List Char}
    (hdigits : Digits digits) (hne : digits ≠ []) : ∃ significand exponent,
    Unsigned (digits ++ if keepsPoint then ['.', '0'] else []) significand exponent ∧
      (significand * 10 ^ exponent : ℚ) = Nat.ofDigitChars 10 digits 0 := by
  cases keepsPoint with
  | false =>
      rw [if_neg Bool.false_ne_true, List.append_nil]
      refine ⟨_, _, unsigned_whole hdigits hne, ?_⟩
      rw [zpow_zero, mul_one]
  | true =>
      rw [if_pos rfl]
      refine ⟨_, _, unsigned_pointZero hdigits hne, ?_⟩
      push_cast
      ring

/-- A decimal written in full says its number. -/
theorem unsigned_writePositional (keepsPoint : Bool) (d : Decimal) : ∃ significand exponent,
    Unsigned (writePositional keepsPoint d.digits (d.exponent + d.digits.length)) significand
        exponent ∧
      (significand * 10 ^ exponent : ℚ) = d.value := by
  unfold writePositional
  by_cases hfront : d.exponent + d.digits.length ≤ 0
  · -- The point stands in front of all digits, behind the first of the zeros.
    rw [if_pos hfront]
    have htext := unsigned_pointed
      (digits_padded ((-(d.exponent + d.digits.length)).toNat + 1) d) (by simp) one_ne_zero
    rw [ofDigitChars_padded] at htext
    refine ⟨_, _, htext, ?_⟩
    rw [value]
    congr 2
    simp only [List.length_append, List.length_replicate]
    omega
  · rw [if_neg hfront]
    by_cases hback : d.digits.length ≤ (d.exponent + d.digits.length).toNat
    · -- The point stands behind all digits, or is left out there.
      rw [if_pos hback]
      set zeros := (d.exponent + d.digits.length).toNat - d.digits.length
      have hzeros : d.exponent = zeros := by omega
      have hdigits : Digits (d.digits ++ List.replicate zeros '0') :=
        digits_append (digits_toDigits d.significand) (digits_zeros zeros)
      have hne := List.append_ne_nil_of_left_ne_nil d.digits_ne_nil (List.replicate zeros '0')
      obtain ⟨significand, exponent, htext, hvalue⟩ := unsigned_keepsPoint keepsPoint hdigits hne
      refine ⟨significand, exponent, htext, ?_⟩
      rw [hvalue, Nat.ofDigitChars_append, Nat.ofDigitChars_replicate_zero, ofDigitChars_digits,
        value, hzeros, zpow_natCast]
      push_cast
      ring
    · -- The point stands between two digits.
      rw [if_neg hback]
      have htext := unsigned_pointed (digits_toDigits d.significand) d.digits_ne_nil
        (by omega : (d.exponent + d.digits.length).toNat ≠ 0)
      rw [show Nat.toDigits 10 d.significand = d.digits from rfl, ofDigitChars_digits] at htext
      refine ⟨_, _, htext, ?_⟩
      rw [value]
      congr 2
      omega

/-- A power of ten with its sign. -/
theorem power_writeScientific (power : ℤ) :
    Power ('e' :: (if power < 0 then '-' else '+') :: Nat.toDigits 10 power.natAbs) power := by
  have hsign : Sign [if power < 0 then '-' else '+'] (decide (power < 0)) := by
    by_cases hneg : power < 0
    · rw [if_pos hneg, decide_eq_true hneg]
      exact .minus
    · rw [if_neg hneg, decide_eq_false hneg]
      exact .plus
  have hpower := Power.present (.inl rfl) hsign Nat.toDigits_ne_nil
    (digits_toDigits power.natAbs)
  rw [Nat.ofDigitChars_ten_toDigits] at hpower
  have hvalue : (if decide (power < 0) then -(power.natAbs : ℤ) else power.natAbs) = power := by
    by_cases hneg : power < 0
    · rw [decide_eq_true hneg, if_pos rfl]
      omega
    · rw [decide_eq_false hneg, if_neg Bool.false_ne_true]
      omega
  rwa [hvalue] at hpower

/-- A decimal written with one digit before the point and an exponent says its number. -/
theorem unsigned_writeScientific (d : Decimal) :
    Unsigned (writeScientific d.digits (d.exponent + d.digits.length - 1)) d.significand
      d.exponent := by
  have hpower := power_writeScientific (d.exponent + d.digits.length - 1)
  obtain ⟨c, rest, hdigits⟩ := List.exists_cons_of_ne_nil d.digits_ne_nil
  have hall : Digits (c :: rest) := hdigits ▸ digits_toDigits d.significand
  have hvalue := ofDigitChars_digits d
  rw [hdigits] at hpower hvalue ⊢
  cases rest with
  | nil =>
      have htext := Unsigned.mk (.whole (List.cons_ne_nil c []) hall) hpower
      simpa [writeScientific, hvalue] using htext
  | cons c' rest =>
      have hfront : Digits [c] := fun d hd => hall d (by simp_all)
      have hback : Digits (c' :: rest) := fun d hd => hall d (List.mem_cons_of_mem c hd)
      have htext := Unsigned.mk (.pointed (List.cons_ne_nil c []) hfront hback) hpower
      have hexponent : d.exponent + (c :: c' :: rest).length - 1 - (c' :: rest).length =
          d.exponent := by
        rw [List.length_cons]
        push_cast
        ring
      rw [hexponent, show [c] ++ c' :: rest = c :: c' :: rest from rfl, hvalue] at htext
      simpa [writeScientific] using htext

/-- Whatever the style, a decimal that is written says its number. -/
theorem unsigned_write (style : NumberStyle) (d : Decimal) : ∃ significand exponent,
    Unsigned (d.write style) significand exponent ∧
      (significand * 10 ^ exponent : ℚ) = d.value := by
  simp only [write]
  split
  · rw [sub_add_cancel]
    exact unsigned_writePositional style.keepsPoint d
  · exact ⟨_, _, unsigned_writeScientific d, rfl⟩

/-- With a fixed number of places a decimal says the number of its digits in units of the last
place. -/
theorem unsigned_writeFixed (places : Nat) (d : Decimal) :
    Unsigned (d.writeFixed places) d.significand (-places) := by
  simp only [writeFixed]
  set padded := List.replicate (places + 1 - d.digits.length) '0' ++ d.digits with hpadded
  have hdigits : Digits padded := digits_padded _ d
  have hne : padded ≠ [] := List.append_ne_nil_of_right_ne_nil _ d.digits_ne_nil
  have hlength : places + 1 ≤ padded.length := by
    rw [hpadded, List.length_append, List.length_replicate]
    omega
  have hvalue : Nat.ofDigitChars 10 padded 0 = d.significand := ofDigitChars_padded _ d
  by_cases hplaces : places = 0
  · have htext := unsigned_whole hdigits hne
    rw [hvalue] at htext
    simpa [hplaces] using htext
  · have htext := unsigned_pointed hdigits hne (by omega : padded.length - places ≠ 0)
    rw [hvalue, Nat.sub_sub_self (by omega)] at htext
    rwa [if_neg hplaces]

end Decimal

end PNorm
