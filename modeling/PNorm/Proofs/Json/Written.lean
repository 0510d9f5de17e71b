import PNorm.Console.Result
import PNorm.Proofs.Json.Grammar
import PNorm.Proofs.Number.Written

/-!
# What is written as JSON is JSON

A quoted text is a string of the grammar, and its pieces form that text again
(`Text.exists_stringText_quote`), whatever characters are in it.  A shortest
decimal in the style of documents is a number (`Decimal.magnitude_write_shortest`):
JSON wants digits on both sides of a point and no zero in front of other digits,
which the digits of a normalized decimal fulfil.

Quoting spells out the quotation mark, the backslash and the control characters, five
of which have a letter of their own.  The others take four hexadecimal digits, and that
these name the character again is the only computation here.
-/

namespace PNorm

open Json

/-! ## Strings -/

namespace Text

/-- `piece` stands for a character, whatever pieces follow. -/
def Stands (piece : Piece) (c : Char) : Prop :=
  ∀ rest, Piece.text? (piece :: rest) = (Piece.text? rest).map (c :: ·)

theorem stands_char (c : Char) : Stands (.char c) c := fun _ => rfl

/-- A code unit below the surrogates stands for the character of that number. -/
theorem stands_unit {c : Char} (hc : c.toNat < 0xD800) : Stands (.unit c.toNat) c := by
  intro rest
  conv_lhs => rw [Piece.text?.eq_def]
  simp only
  rw [if_neg (by omega), if_neg (by omega), Char.ofNat_toNat]

theorem hexDigit_digitChar {n : Nat} (hn : n < 16) : HexDigit (Nat.digitChar n) n :=
  ⟨hn, .inl rfl⟩

/-- A control character without a short escape, by its number. -/
theorem pieceText_control {c : Char} (hc : c.toNat < 0x20) :
    PieceText ['\\', 'u', '0', '0', Nat.digitChar (c.toNat / 16), Nat.digitChar (c.toNat % 16)]
      (.unit c.toNat) := by
  have hunit := PieceText.unit (hexDigit_digitChar (by decide : 0 < 16))
    (hexDigit_digitChar (by decide : 0 < 16)) (hexDigit_digitChar (by omega : c.toNat / 16 < 16))
    (hexDigit_digitChar (by omega : c.toNat % 16 < 16))
  have hcode : ((0 * 16 + 0) * 16 + c.toNat / 16) * 16 + c.toNat % 16 = c.toNat := by omega
  rwa [hcode] at hunit

private theorem exists_piece_quoteChar (c : Char) :
    ∃ piece, PieceText (quoteChar c) piece ∧ Stands piece c := by
  fun_cases quoteChar c with
  | case1 => exact ⟨_, .short (by decide : ('"', '"') ∈ shortEscapes), stands_char _⟩
  | case2 => exact ⟨_, .short (by decide : ('\\', '\\') ∈ shortEscapes), stands_char _⟩
  | case3 => exact ⟨_, .short (by decide : ('b', '\x08') ∈ shortEscapes), stands_char _⟩
  | case4 => exact ⟨_, .short (by decide : ('f', '\x0c') ∈ shortEscapes), stands_char _⟩
  | case5 => exact ⟨_, .short (by decide : ('n', '\n') ∈ shortEscapes), stands_char _⟩
  | case6 => exact ⟨_, .short (by decide : ('r', '\r') ∈ shortEscapes), stands_char _⟩
  | case7 => exact ⟨_, .short (by decide : ('t', '\t') ∈ shortEscapes), stands_char _⟩
  | case8 _ _ _ _ _ _ _ _ hcontrol =>
      exact ⟨_, pieceText_control hcontrol, stands_unit (by omega)⟩
  | case9 _ hquote hbackslash _ _ _ _ _ hcontrol =>
      exact ⟨_, .plain (Nat.not_lt.mp hcontrol) hquote hbackslash, stands_char c⟩

/-- **A quoted text is a string that says that text**, whatever characters are in it. -/
theorem exists_stringText_quote (cs : List Char) :
    ∃ pieces, StringText (quote cs) pieces ∧ Piece.text? pieces = some cs := by
  have hcontent : ∃ pieces, ContentText (cs.flatMap quoteChar) pieces ∧
      Piece.text? pieces = some cs := by
    induction cs with
    | nil => exact ⟨[], .nil, rfl⟩
    | cons c cs ih =>
        obtain ⟨pieces, hcontent, htext⟩ := ih
        obtain ⟨piece, hpiece, hstands⟩ := exists_piece_quoteChar c
        refine ⟨piece :: pieces, .cons hpiece hcontent, ?_⟩
        rw [hstands, htext]
        rfl
  obtain ⟨pieces, hcontent, htext⟩ := hcontent
  exact ⟨pieces, .mk hcontent, htext⟩

end Text

/-! ### Plain strings -/

namespace Json

/-- Whether a character of a string can stand for itself. -/
def isPlain (c : Char) : Bool :=
  decide (0x20 ≤ c.toNat) && c != '"' && c != '\\'

/-- Characters that stand for themselves, and then anything. -/
theorem contentText_plain (cs : List Char) {rest : List Char} {pieces : List Piece}
    (hcs : cs.all isPlain) (hrest : ContentText rest pieces) :
    ContentText (cs ++ rest) (cs.map Piece.char ++ pieces) := by
  induction cs with
  | nil => exact hrest
  | cons c cs ih =>
      simp only [List.all_cons, isPlain, Bool.and_eq_true, decide_eq_true_eq, bne_iff_ne] at hcs
      obtain ⟨⟨⟨hcontrol, hquote⟩, hbackslash⟩, hcs⟩ := hcs
      rw [← List.singleton_append, List.append_assoc]
      exact .cons (.plain hcontrol hquote hbackslash) (ih hcs)

theorem stringText_plain (cs : List Char) (hcs : cs.all isPlain) :
    StringText ('"' :: (cs ++ ['"'])) (cs.map Piece.char) := by
  simpa using StringText.mk (contentText_plain cs hcs .nil)

theorem text?_plain (cs : List Char) : Piece.text? (cs.map Piece.char) = some cs := by
  induction cs with
  | nil => rfl
  | cons c cs ih => simp [Piece.text?, ih]

end Json

/-! ## Numbers -/

namespace Decimal

open Grammar (Digits)

/-- The digits of a number that is not zero do not start with a zero. -/
theorem head_toDigits {n : Nat} (hn : n ≠ 0) : ∀ c ∈ (Nat.toDigits 10 n).head?, c ≠ '0' := by
  induction n using Nat.strong_induction_on with
  | _ n ih =>
      by_cases hsmall : n < 10
      · rw [Nat.toDigits_of_lt_base hsmall]
        have hall : ∀ n < 10, n ≠ 0 → Nat.digitChar n ≠ '0' := by decide
        rintro c ⟨⟩
        exact hall n hsmall hn
      · rw [Nat.toDigits_of_base_le (by decide) (Nat.not_lt.mp hsmall)]
        have hrest := ih (n / 10) (by omega) (by omega)
        intro c hc
        rw [List.head?_append_of_ne_nil _ Nat.toDigits_ne_nil] at hc
        exact hrest c hc

theorem whole_of_head {digits : List Char} (hdigits : Digits digits) (hne : digits ≠ [])
    (hhead : ∀ c ∈ digits.head?, c ≠ '0') : Whole digits := by
  cases digits with
  | nil => exact absurd rfl hne
  | cons c rest =>
      exact .digits (hdigits c (by simp)) (hhead c (by simp)) fun d hd => hdigits d (by simp [hd])

private theorem normalize_exponent (d : Decimal) :
    d.normalize.significand = 0 → d.normalize.exponent = 0 := by
  fun_induction normalize d with
  | case1 => exact fun _ => rfl
  | case2 d _ _ ih => exact ih
  | case3 d hne _ => exact fun hzero => absurd hzero hne

theorem magnitude_pointed {whole fraction : List Char} (hwhole : Whole whole)
    (hne : fraction ≠ []) (hfraction : Digits fraction) :
    Magnitude (whole ++ '.' :: fraction) := by
  simpa using Magnitude.mk hwhole (.present hne hfraction) .absent

theorem digits_of_zero {d : Decimal} (hzero : d.significand = 0) : d.digits = ['0'] := by
  rw [digits, hzero, Nat.toDigits_zero]

/-- A decimal in full that keeps its point is a number, if its zero has no zeros behind it. -/
theorem magnitude_writePositional (d : Decimal) (hzero : d.significand = 0 → d.exponent = 0) :
    Magnitude (writePositional true d.digits (d.exponent + d.digits.length)) := by
  have hdigits : Digits d.digits := digits_toDigits d.significand
  fun_cases writePositional true d.digits (d.exponent + d.digits.length) with
  | case1 hpos =>
      -- The point is in front: a single zero stands before it.
      exact magnitude_pointed .zero (List.append_ne_nil_of_right_ne_nil _ d.digits_ne_nil)
        (digits_padded _ d)
  | case2 hpos hback =>
      -- The point is behind, and a zero follows it.
      rw [if_pos rfl]
      refine magnitude_pointed ?_ (List.cons_ne_nil '0' []) (digits_zeros 1)
      by_cases hsignificand : d.significand = 0
      · rw [digits_of_zero hsignificand, hzero hsignificand]
        exact .zero
      · refine whole_of_head (digits_append hdigits (digits_zeros _))
          (List.append_ne_nil_of_left_ne_nil d.digits_ne_nil _) ?_
        rw [List.head?_append_of_ne_nil _ d.digits_ne_nil]
        exact head_toDigits hsignificand
  | case3 hpos hinside =>
      -- There are digits on both sides of the point, so the number is not zero.
      have hsignificand : d.significand ≠ 0 := by
        intro h
        simp only [digits_of_zero h, List.length_singleton] at hinside
        omega
      have hback : d.digits.drop (d.exponent + d.digits.length).toNat ≠ [] := by
        rw [ne_eq, List.drop_eq_nil_iff]
        exact hinside
      refine magnitude_pointed ?_ hback fun c hc => hdigits c (List.mem_of_mem_drop hc)
      refine whole_of_head (fun c hc => hdigits c (List.mem_of_mem_take hc)) ?_ ?_
      · rw [ne_eq, List.take_eq_nil_iff, not_or]
        exact ⟨by omega, d.digits_ne_nil⟩
      · rw [List.head?_take, if_neg (by omega)]
        exact head_toDigits hsignificand

/-- One digit before the point is a number, whatever it is. -/
theorem magnitude_writeScientific (d : Decimal) (power : ℤ) :
    Magnitude (writeScientific d.digits power) := by
  have hpower := power_writeScientific power
  have hdigits : Digits d.digits := digits_toDigits d.significand
  obtain ⟨c, rest, hcons⟩ := List.exists_cons_of_ne_nil d.digits_ne_nil
  rw [hcons] at hdigits ⊢
  have hwhole : Whole [c] := by
    by_cases hc : c = '0'
    · rw [hc]
      exact .zero
    · exact .digits (hdigits c (by simp)) hc (by simp [Digits])
  cases rest with
  | nil => simpa [writeScientific] using Magnitude.mk hwhole .absent hpower
  | cons c' rest =>
      have hfraction := Fraction.present (List.cons_ne_nil c' rest)
        fun d hd => hdigits d (List.mem_cons_of_mem c hd)
      simpa [writeScientific] using Magnitude.mk hwhole hfraction hpower

/-- A shortest decimal in a document is a number. -/
theorem magnitude_write_shortest (f : BinaryFormat) (tie : Tie) (steps depth : ℕ) :
    Magnitude ((shortest f tie steps depth).write Result.documentStyle) := by
  simp only [write]
  split
  · rw [sub_add_cancel]
    exact magnitude_writePositional _ (normalize_exponent _)
  · exact magnitude_writeScientific _ _

end Decimal

end PNorm
