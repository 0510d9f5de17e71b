import Mathlib
import PNorm.Proofs.Call.Grammar

/-!
# Lexemes and the texts they come from

Every scanner takes a piece from the front of a text, and no more than is there
(`scanDecimal_le` and so on).  It is compared with the grammar in two
directions.  What it takes is a text of the grammar (`scanDecimal_sound` and so
on), and if a text of the grammar stands at the front and something follows that
ends it, exactly that text is taken (`scanDecimal_append` and so on).  The second
direction is the one that needs the scanners to be greedy: each stops at the
first character that cannot continue its piece.

From these come two facts about the list of lexemes, which are all that the
rules of the reader need: what its first lexeme is (`lexemesFrom_append`), and
which text a first lexeme has (`exists_text_of_lexemesFrom`).

Offsets count characters.  They take no part in what is read, but a refusal
reports one, so that both facts say where a lexeme begins and not only what it
is.

What ends a piece is a condition on the next character, if there is one
(`EndsNumber` and its like).  A text that stops there fulfils it as well, so no
lemma needs a case for the end of the input.
-/

namespace PNorm

open Grammar

namespace Grammar

/-! ## What ends a word or a number -/

/-- The characters that can follow a word or a number in a call. -/
def endsItem (c : Char) : Bool :=
  Text.isSpace c || c == ',' || c == '(' || c == ')' || c == ']'

/-- The text is over, or it goes on with a character that ends a word or a number. -/
def Ends (rest : List Char) : Prop :=
  ∀ c ∈ rest.head?, endsItem c

/-- A condition that none of the ending characters satisfies fails at the front of such a text. -/
theorem Ends.not_head {rest : List Char} (hrest : Ends rest) {p : Char → Bool}
    (hp : [' ', '\t', '\r', '\n', ',', '(', ')', ']'].all (!p ·) = true) :
    ∀ c ∈ rest.head?, p c = false := by
  intro c hc
  have hends := hrest c hc
  simp only [endsItem, Text.isSpace, Bool.or_eq_true, beq_iff_eq] at hends
  have hmem : c ∈ [' ', '\t', '\r', '\n', ',', '(', ')', ']'] := by
    simp only [List.mem_cons, List.not_mem_nil, or_false]
    tauto
  simpa using List.all_eq_true.mp hp c hmem

theorem ends_nil : Ends [] := by simp [Ends]

theorem ends_cons {c : Char} {rest : List Char} (hc : endsItem c) : Ends (c :: rest) := by
  simpa [Ends] using hc

/-- The text is over, or it goes on with a character that no decimal goes on with. -/
def EndsNumber (rest : List Char) : Prop :=
  ∀ c ∈ rest.head?, c.isDigit = false ∧ c ≠ '.' ∧ c ≠ 'e' ∧ c ≠ 'E'

theorem Ends.endsNumber {rest : List Char} (hrest : Ends rest) : EndsNumber rest := by
  intro c hc
  refine ⟨hrest.not_head (by decide) c hc, ?_, ?_, ?_⟩
  · simpa using hrest.not_head (p := fun c => c == '.') (by decide) c hc
  · simpa using hrest.not_head (p := fun c => c == 'e') (by decide) c hc
  · simpa using hrest.not_head (p := fun c => c == 'E') (by decide) c hc

/-- Spaces end a word or a number as well as what follows them does. -/
theorem Ends.spaces_append {spaces rest : List Char} (hspaces : Spaces spaces)
    (hrest : Ends rest) : Ends (spaces ++ rest) := by
  cases spaces with
  | nil => exact hrest
  | cons c spaces =>
      refine ends_cons ?_
      simp [endsItem, hspaces c (by simp)]

end Grammar

/-! ## Taking while a condition holds -/

theorem take_length_takeWhile (p : Char → Bool) (cs : List Char) :
    cs.take (cs.takeWhile p).length = cs.takeWhile p :=
  (List.prefix_iff_eq_take.mp (cs.takeWhile_prefix p)).symm

theorem takeWhile_append_of_head {p : Char → Bool} {text rest : List Char}
    (htext : ∀ c ∈ text, p c) (hrest : ∀ c ∈ rest.head?, p c = false) :
    (text ++ rest).takeWhile p = text := by
  rw [List.takeWhile_append_of_pos htext]
  cases rest with
  | nil => simp
  | cons c rest => simp [hrest c (by simp)]

theorem dropWhile_append_of_head {p : Char → Bool} {before rest : List Char}
    (hbefore : ∀ c ∈ before, p c) (hrest : ∀ c ∈ rest.head?, p c = false) :
    (before ++ rest).dropWhile p = rest := by
  rw [List.dropWhile_append_of_pos hbefore]
  cases rest with
  | nil => rfl
  | cons c rest => rw [List.dropWhile_cons_of_neg (by simp [hrest c rfl])]

theorem head_append_of_ne_nil {p : Char → Prop} {text rest : List Char} (hne : text ≠ [])
    (htext : ∀ c ∈ text, p c) : ∀ c ∈ (text ++ rest).head?, p c := by
  cases text with
  | nil => exact absurd rfl hne
  | cons d text =>
      rintro c hc
      obtain rfl : d = c := by simpa using hc
      exact htext d (by simp)

namespace Numeral

/-! ## Signs -/

theorem scanSign_sound (cs : List Char) :
    Sign (cs.take (scanSign cs).2) (scanSign cs).1 := by
  unfold scanSign
  split
  · exact .minus
  · exact .plus
  · exact .absent

theorem scanSign_le (cs : List Char) : (scanSign cs).2 ≤ cs.length := by
  unfold scanSign
  split <;> simp

theorem scanSign_append {sign rest : List Char} {negative : Bool} (hsign : Sign sign negative)
    (hrest : ∀ c ∈ rest.head?, c ≠ '-' ∧ c ≠ '+') :
    scanSign (sign ++ rest) = (negative, sign.length) := by
  cases hsign with
  | plus => rfl
  | minus => rfl
  | absent =>
      cases rest with
      | nil => rfl
      | cons c rest =>
          obtain ⟨hminus, hplus⟩ := hrest c (by simp)
          simp [scanSign, hminus, hplus]

/-! ## Powers of ten -/

theorem digits_takeWhile (cs : List Char) : Digits (cs.takeWhile Char.isDigit) :=
  fun _ hc => List.mem_takeWhile_imp hc

theorem scanExponent_sound (cs : List Char) :
    Power (cs.take (scanExponent cs).2) (scanExponent cs).1 := by
  cases cs with
  | nil => exact .absent
  | cons c rest =>
      simp only [scanExponent]
      by_cases hletter : c = 'e' ∨ c = 'E'
      · rw [if_pos hletter]
        by_cases hnone : (rest.drop (scanSign rest).2).takeWhile Char.isDigit = []
        · rw [if_pos hnone]
          exact .absent
        · have hpower := Power.present hletter (scanSign_sound rest) hnone (digits_takeWhile _)
          rw [if_neg hnone, Nat.add_assoc, Nat.add_comm 1, List.take_succ_cons, List.take_add,
            take_length_takeWhile]
          exact hpower
      · rw [if_neg hletter]
        exact .absent

private theorem scanExponent_le (cs : List Char) : (scanExponent cs).2 ≤ cs.length := by
  cases cs with
  | nil => exact Nat.zero_le _
  | cons c rest =>
      simp only [scanExponent]
      split
      · split
        · exact Nat.zero_le _
        · have hsign := scanSign_le rest
          have hdigits := (List.takeWhile_prefix (p := Char.isDigit)
            (l := rest.drop (scanSign rest).2)).length_le
          rw [List.length_drop] at hdigits
          simp only [List.length_cons]
          omega
      · exact Nat.zero_le _

/-- A sign does not start with a digit, and digits do not start with a sign. -/
theorem not_sign_of_isDigit {c : Char} (hc : c.isDigit) : c ≠ '-' ∧ c ≠ '+' := by
  constructor <;> rintro rfl <;> exact absurd hc (by decide)

theorem scanExponent_append {power rest : List Char} {exponent : ℤ} (hpower : Power power exponent)
    (hrest : EndsNumber rest) : scanExponent (power ++ rest) = (exponent, power.length) := by
  cases hpower with
  | absent =>
      cases rest with
      | nil => rfl
      | cons c rest =>
          obtain ⟨-, -, hlower, hupper⟩ := hrest c (by simp)
          simp [scanExponent, hlower, hupper]
  | @present c sign digits negative hletter hsign hne hdigits =>
      have hscan : scanSign (sign ++ (digits ++ rest)) = (negative, sign.length) :=
        scanSign_append hsign
          (head_append_of_ne_nil hne fun c hc => not_sign_of_isDigit (hdigits c hc))
      have htake : (digits ++ rest).takeWhile Char.isDigit = digits :=
        takeWhile_append_of_head hdigits fun c hc => (hrest c hc).1
      simp only [List.cons_append, List.append_assoc, scanExponent, if_pos hletter, hscan,
        List.drop_left, htake, if_neg hne, List.length_cons, List.length_append]
      congr 1
      omega

/-! ## Decimals -/

theorem scanFraction_sound (cs : List Char) :
    scanFraction cs = ([], 0) ∨
      cs.take (scanFraction cs).2 = '.' :: (scanFraction cs).1 ∧ Digits (scanFraction cs).1 := by
  fun_cases scanFraction cs with
  | case1 rest =>
      refine .inr ⟨?_, digits_takeWhile rest⟩
      simp only
      rw [Nat.add_comm, List.take_succ_cons, take_length_takeWhile]
  | case2 => exact .inl rfl

private theorem scanFraction_le (cs : List Char) : (scanFraction cs).2 ≤ cs.length := by
  fun_cases scanFraction cs with
  | case1 rest digits =>
      have hdigits : digits.length ≤ rest.length := (List.takeWhile_prefix _).length_le
      simp only [List.length_cons]
      omega
  | case2 => exact Nat.zero_le _

private theorem mantissa_pointed {whole fraction : List Char} (hwhole : Digits whole)
    (hfraction : Digits fraction) (hne : ¬ (whole = [] ∧ fraction = [])) :
    Mantissa (whole ++ '.' :: fraction) whole fraction := by
  cases whole with
  | nil => exact .fraction (fun hnil => hne ⟨rfl, hnil⟩) hfraction
  | cons c whole => exact .pointed (by simp) hwhole hfraction

theorem scanDecimal_sound {cs : List Char} {scanned : ScannedDecimal}
    (h : scanDecimal cs = some scanned) :
    Unsigned (cs.take scanned.size) scanned.significand scanned.exponent := by
  simp only [scanDecimal] at h
  by_cases hempty : cs.takeWhile Char.isDigit = [] ∧
      (scanFraction (cs.drop (cs.takeWhile Char.isDigit).length)).1 = []
  · rw [if_pos hempty] at h
    cases h
  · rw [if_neg hempty] at h
    cases h
    have hwhole := digits_takeWhile cs
    set whole := cs.takeWhile Char.isDigit with hwholeEq
    have hpower := scanExponent_sound
      (cs.drop (whole.length + (scanFraction (cs.drop whole.length)).2))
    simp only
    rw [List.take_add, List.take_add, hwholeEq, take_length_takeWhile, ← hwholeEq]
    refine .mk ?_ hpower
    rcases scanFraction_sound (cs.drop whole.length) with hnone | ⟨hpoint, hfraction⟩
    · rw [hnone] at hempty ⊢
      rw [List.take_zero, List.append_nil]
      exact .whole (fun hnil => hempty ⟨hnil, rfl⟩) hwhole
    · rw [hpoint]
      exact mantissa_pointed hwhole hfraction hempty

theorem scanDecimal_le {cs : List Char} {scanned : ScannedDecimal}
    (h : scanDecimal cs = some scanned) : scanned.size ≤ cs.length := by
  simp only [scanDecimal] at h
  split at h
  · cases h
  · cases h
    have hwhole := (List.takeWhile_prefix (p := Char.isDigit) (l := cs)).length_le
    set whole := cs.takeWhile Char.isDigit
    have hfraction := scanFraction_le (cs.drop whole.length)
    have hexponent := scanExponent_le
      (cs.drop (whole.length + (scanFraction (cs.drop whole.length)).2))
    rw [List.length_drop] at hfraction hexponent
    simp only
    omega

/-- What follows the digits of a decimal is neither a digit nor a point. -/
theorem head_power_append {power rest : List Char} {exponent : ℤ} (hpower : Power power exponent)
    (hrest : EndsNumber rest) : ∀ c ∈ (power ++ rest).head?, c.isDigit = false ∧ c ≠ '.' := by
  cases hpower with
  | absent =>
      intro c hc
      exact ⟨(hrest c hc).1, (hrest c hc).2.1⟩
  | present hletter =>
      rintro c hc
      simp only [List.cons_append, List.head?_cons, Option.mem_some_iff] at hc
      subst hc
      rcases hletter with rfl | rfl <;> decide

theorem scanFraction_of_head {cs : List Char} (hcs : ∀ c ∈ cs.head?, c ≠ '.') :
    scanFraction cs = ([], 0) := by
  unfold scanFraction
  split
  · exact absurd rfl (hcs '.' (by simp))
  · rfl

theorem scanDecimal_append {text rest : List Char} {significand : Nat} {exponent : ℤ}
    (hdecimal : Unsigned text significand exponent) (hrest : Ends rest) :
    scanDecimal (text ++ rest) = some ⟨significand, exponent, text.length⟩ := by
  obtain @⟨mantissa, power, whole, fraction, exponent, hmantissa, hpower⟩ := hdecimal
  have hexponent := scanExponent_append hpower hrest.endsNumber
  have hhead := head_power_append hpower hrest.endsNumber
  -- Without a point there is no fraction, and after a point it goes on to the power of ten.
  have hnone : scanFraction (power ++ rest) = ([], 0) :=
    scanFraction_of_head fun c hc => (hhead c hc).2
  have hsome : ∀ digits, Digits digits →
      scanFraction ('.' :: (digits ++ (power ++ rest))) = (digits, 1 + digits.length) := by
    intro digits hdigits
    simp only [scanFraction]
    rw [takeWhile_append_of_head hdigits fun c hc => (hhead c hc).1]
  rw [List.append_assoc]
  cases hmantissa with
  | whole hne hwhole =>
      have htake : (mantissa ++ (power ++ rest)).takeWhile Char.isDigit = mantissa :=
        takeWhile_append_of_head hwhole fun c hc => (hhead c hc).1
      simp only [scanDecimal, htake, List.drop_left, hnone, Nat.add_zero, hexponent]
      rw [if_neg fun h => hne h.1]
      simp
  | pointed hne hwhole hfraction =>
      have htake : (whole ++ '.' :: (fraction ++ (power ++ rest))).takeWhile Char.isDigit = whole :=
        takeWhile_append_of_head hwhole (by simp)
      have hdrop : (whole ++ '.' :: (fraction ++ (power ++ rest))).drop
          (whole.length + (1 + fraction.length)) = power ++ rest := by
        rw [← List.drop_drop, List.drop_left, Nat.add_comm, List.drop_succ_cons, List.drop_left]
      simp only [List.append_assoc, List.cons_append, scanDecimal, htake, List.drop_left,
        hsome fraction hfraction, hdrop, hexponent]
      rw [if_neg fun h => hne h.1]
      simp only [List.length_append, List.length_cons]
      congr 2
      omega
  | fraction hne hfraction =>
      have hdrop : ('.' :: (fraction ++ (power ++ rest))).drop (1 + fraction.length) =
          power ++ rest := by
        rw [Nat.add_comm, List.drop_succ_cons, List.drop_left]
      have htake : ('.' :: (fraction ++ (power ++ rest))).takeWhile Char.isDigit = [] := rfl
      simp only [List.cons_append, scanDecimal, htake, List.length_nil, List.drop_zero,
        hsome fraction hfraction, Nat.zero_add, hdrop, hexponent]
      rw [if_neg fun h => hne h.2]
      simp only [List.nil_append, List.length_append, List.length_cons]
      congr 2
      omega

end Numeral

/-! ## Keywords and words -/

theorem keyword?_eq_some {negative : Bool} {word : List Char} {n : Numeral}
    (h : keyword? negative word = some n) :
    word = "NaN".toList ∧ n = .nan ∨
      (word = "inf".toList ∨ word = "Infinity".toList) ∧ n = .infinite negative := by
  fun_cases keyword? negative word with
  | case1 hnan => exact .inl ⟨hnan, by simpa [keyword?, hnan] using h.symm⟩
  | case2 hnan hinfinite =>
      rw [keyword?, if_neg hnan, if_pos hinfinite] at h
      exact .inr ⟨hinfinite, by simpa using h.symm⟩
  | case3 hnan hinfinite =>
      rw [keyword?, if_neg hnan, if_neg hinfinite] at h
      cases h

theorem keyword?_eq_none_iff {negative : Bool} {word : List Char} :
    keyword? negative word = none ↔ word ∉ keywords := by
  unfold keyword? keywords
  split
  · simp_all
  · split <;> simp_all

/-- The part of a text that is taken for a word is no keyword if the text does not start with a
letter. -/
theorem takeWhile_not_mem_keywords {cs : List Char} (hcs : ∀ c ∈ cs.head?, c.isAlpha = false) :
    cs.takeWhile isWordPart ∉ keywords := by
  intro hword
  obtain ⟨c, hhead, hc⟩ : ∃ c ∈ (cs.takeWhile isWordPart).head?, c.isAlpha = true := by
    simp only [keywords, List.mem_cons, List.not_mem_nil, or_false] at hword
    rcases hword with h | h | h <;> rw [h] <;> exact ⟨_, rfl, by decide⟩
  have hmem : c ∈ cs.head? := by
    rw [List.head?_takeWhile] at hhead
    exact (Option.filter_eq_some_iff.mp hhead).1
  rw [hcs c hmem] at hc
  cases hc

/-- A keyword that does not go on as a longer word is the whole word there. -/
theorem takeWhile_keyword {word rest : List Char} (hword : word ∈ keywords)
    (hrest : ∀ c ∈ rest.head?, isWordPart c = false) :
    (word ++ rest).takeWhile isWordPart = word := by
  have hparts : keywords.all (List.all · isWordPart) = true := by decide
  exact takeWhile_append_of_head (List.all_eq_true.mp (List.all_eq_true.mp hparts word hword)) hrest

theorem isWordPart_of_isWordStart {c : Char} (hc : isWordStart c) : isWordPart c := by
  unfold isWordStart at hc
  unfold isWordPart Char.isAlphanum
  rcases Bool.or_eq_true_iff.mp hc with h | h <;> simp [h]

theorem Grammar.IsWord.isWordPart {word : List Char} (hword : IsWord word) :
    ∀ c ∈ word, isWordPart c := by
  cases word with
  | nil => exact hword.elim
  | cons c rest =>
      intro d hd
      rcases List.mem_cons.mp hd with rfl | hd
      · exact isWordPart_of_isWordStart hword.1
      · exact hword.2 d hd

namespace Token

/-! ## Numerals -/

theorem scanNumeral_sound {cs : List Char} {n : Numeral} {size : Nat}
    (h : scanNumeral cs = some (n, size)) : Spells (cs.take size) n := by
  have hsign := Numeral.scanSign_sound cs
  simp only [scanNumeral] at h
  set signSize := (Numeral.scanSign cs).2
  set negative := (Numeral.scanSign cs).1
  cases hkeyword : keyword? negative ((cs.drop signSize).takeWhile isWordPart) with
  | some value =>
      rw [hkeyword] at h
      obtain ⟨rfl, rfl⟩ := Prod.mk.inj (Option.some.inj h)
      rw [List.take_add, take_length_takeWhile]
      rcases keyword?_eq_some hkeyword with ⟨hword, rfl⟩ | ⟨hword, rfl⟩
      · rw [hword]
        exact .nan hsign
      · exact .infinite hsign hword
  | none =>
      rw [hkeyword] at h
      obtain ⟨scanned, hscanned, hpair⟩ := Option.map_eq_some_iff.mp h
      obtain ⟨rfl, rfl⟩ := Prod.mk.inj hpair
      rw [List.take_add]
      exact .decimal hsign (Numeral.scanDecimal_sound hscanned)

theorem scanNumeral_le {cs : List Char} {n : Numeral} {size : Nat}
    (h : scanNumeral cs = some (n, size)) : size ≤ cs.length := by
  have hsign := Numeral.scanSign_le cs
  simp only [scanNumeral] at h
  split at h
  · cases h
    have hword := (List.takeWhile_prefix (p := isWordPart)
      (l := cs.drop (Numeral.scanSign cs).2)).length_le
    rw [List.length_drop] at hword
    omega
  · obtain ⟨scanned, hscanned, hpair⟩ := Option.map_eq_some_iff.mp h
    cases hpair
    have hdecimal := Numeral.scanDecimal_le hscanned
    rw [List.length_drop] at hdecimal
    omega

/-- A decimal starts with a digit or a point. -/
theorem head_decimal_append {text : List Char} {significand : Nat} {exponent : ℤ}
    (hdecimal : Unsigned text significand exponent) (rest : List Char) :
    ∀ c ∈ (text ++ rest).head?, c.isDigit ∨ c = '.' := by
  obtain @⟨mantissa, power, whole, fraction, exponent, hmantissa, hpower⟩ := hdecimal
  cases hmantissa with
  | whole hne hwhole =>
      rw [List.append_assoc]
      exact head_append_of_ne_nil hne fun c hc => .inl (hwhole c hc)
  | pointed hne hwhole =>
      rw [List.append_assoc, List.append_assoc]
      exact head_append_of_ne_nil hne fun c hc => .inl (hwhole c hc)
  | fraction => exact fun c hc => .inr (by simpa using hc.symm)

private theorem isWordStart_of_isDigit {c : Char} (hc : c.isDigit) : isWordStart c = false := by
  have hvalue : 48 ≤ c.toNat ∧ c.toNat ≤ 57 := by
    simpa [Char.isDigit, UInt32.le_iff_toNat_le] using hc
  have halpha : c.isAlpha = false := by
    simp only [Char.isAlpha, Char.isUpper, Char.isLower, Char.reduceVal, ge_iff_le,
      UInt32.le_iff_toNat_le, UInt32.reduceToNat, Char.toNat_val, Bool.or_eq_false_iff,
      Bool.and_eq_false_imp, decide_eq_true_eq, decide_eq_false_iff_not]
    omega
  have hunderscore : c ≠ '_' := by
    rintro rfl
    exact absurd hc (by decide)
  simp [isWordStart, halpha, hunderscore]

/-- So it starts with neither a sign nor a word. -/
theorem not_sign_of_decimal {c : Char} (hc : c.isDigit ∨ c = '.') :
    (c ≠ '-' ∧ c ≠ '+') ∧ isWordStart c = false := by
  rcases hc with hdigit | rfl
  · exact ⟨Numeral.not_sign_of_isDigit hdigit, isWordStart_of_isDigit hdigit⟩
  · decide

theorem scanNumeral_append {text rest : List Char} {n : Numeral} (hspells : Spells text n)
    (hrest : Ends rest) : scanNumeral (text ++ rest) = some (n, text.length) := by
  have hword : ∀ word ∈ keywords, (word ++ rest).takeWhile isWordPart = word :=
    fun word hmem => takeWhile_keyword hmem (hrest.not_head (by decide))
  cases hspells with
  | @nan sign negative hsign =>
      have hscan : Numeral.scanSign (sign ++ ("NaN".toList ++ rest)) = (negative, sign.length) :=
        Numeral.scanSign_append hsign (by simp)
      rw [List.append_assoc]
      simp only [scanNumeral, hscan, List.drop_left, hword "NaN".toList (by decide)]
      simp [keyword?]
  | @infinite sign word negative hsign hinfinite =>
      have hscan : Numeral.scanSign (sign ++ (word ++ rest)) = (negative, sign.length) :=
        Numeral.scanSign_append hsign (by rcases hinfinite with rfl | rfl <;> simp)
      have hmem : word ∈ keywords := by rcases hinfinite with rfl | rfl <;> decide
      rw [List.append_assoc]
      simp only [scanNumeral, hscan, List.drop_left, hword word hmem]
      rcases hinfinite with rfl | rfl <;> simp [keyword?]
  | @decimal sign text negative significand exponent hsign hdecimal =>
      -- What is taken for a word in front of a decimal is empty or starts with a digit.
      have hhead := fun c hc => not_sign_of_decimal (head_decimal_append hdecimal rest c hc)
      have hscan : Numeral.scanSign (sign ++ (text ++ rest)) = (negative, sign.length) :=
        Numeral.scanSign_append hsign fun c hc => (hhead c hc).1
      have hkeyword : keyword? negative ((text ++ rest).takeWhile isWordPart) = none :=
        keyword?_eq_none_iff.mpr (takeWhile_not_mem_keywords fun c hc =>
          (Bool.or_eq_false_iff.mp (hhead c hc).2).1)
      rw [List.append_assoc]
      simp only [scanNumeral, hscan, List.drop_left, hkeyword,
        Numeral.scanDecimal_append hdecimal hrest, Option.map_some, List.length_append]

/-! ## Tokens -/

/-- The texts that a token can come from. -/
inductive HasText : Token → List Char → Prop
  | word {text : List Char} (hword : IsWord text) : HasText (.word text) text
  | numeral {n : Numeral} {text : List Char} (hspells : Spells text n) : HasText (.numeral n) text
  | mark (c : Char) : HasText (.mark c) [c]

theorem scan_sound (c : Char) (rest : List Char) :
    HasText (scan c rest).1 ((c :: rest).take (scan c rest).2) := by
  unfold scan
  by_cases hstart : isWordStart c = true
  · simp only [if_pos hstart]
    rw [take_length_takeWhile, List.takeWhile_cons_of_pos (isWordPart_of_isWordStart hstart)]
    exact .word ⟨hstart, fun d hd => List.mem_takeWhile_imp hd⟩
  · rw [if_neg hstart]
    cases hscan : scanNumeral (c :: rest) with
    | some found => exact .numeral (scanNumeral_sound hscan)
    | none => exact .mark c

theorem scan_le (c : Char) (rest : List Char) : (scan c rest).2 ≤ (c :: rest).length := by
  fun_cases scan c rest with
  | case1 => exact (List.takeWhile_prefix isWordPart).length_le
  | case2 hstart n size hscan => exact scanNumeral_le hscan
  | case3 => simp

/-- No token has an empty text. -/
theorem HasText.ne_nil {token : Token} {text : List Char} (htext : HasText token text) :
    text ≠ [] := by
  cases htext with
  | mark c => simp
  | word hword =>
      rintro rfl
      exact hword
  | numeral hspells =>
      cases hspells with
      | nan hsign => simp
      | infinite hsign hword => rcases hword with rfl | rfl <;> simp
      | decimal hsign hdecimal =>
          obtain ⟨hmantissa, hpower⟩ := hdecimal
          cases hmantissa with
          | whole hne hwhole => simp [hne]
          | pointed hne hwhole hfraction => simp
          | fraction hne hfraction => simp

/-- Keywords are numbers too, whichever token they have become. -/
theorem HasText.numberText {token : Token} {text : List Char} {x : Float}
    (htext : HasText token text) (hnumber : token.number? = some x) : NumberText text x := by
  cases htext with
  | mark c => cases hnumber
  | numeral hspells =>
      exact ⟨_, hspells, Numeral.rounds_iff.mpr (Option.some.inj hnumber).symm⟩
  | word hword =>
      obtain ⟨n, hkeyword, rfl⟩ := Option.map_eq_some_iff.mp hnumber
      refine ⟨n, ?_, Numeral.rounds_iff.mpr rfl⟩
      rcases keyword?_eq_some hkeyword with ⟨rfl, rfl⟩ | ⟨hinfinite, rfl⟩
      · exact .nan .absent
      · exact .infinite .absent hinfinite

theorem scan_word {c : Char} {text rest : List Char} (hword : IsWord (c :: text))
    (hrest : Ends rest) : scan c (text ++ rest) = (.word (c :: text), (c :: text).length) := by
  have htake : (c :: text ++ rest).takeWhile isWordPart = c :: text :=
    takeWhile_append_of_head hword.isWordPart (hrest.not_head (by decide))
  simp only [scan, if_pos hword.1, ← List.cons_append, htake]

theorem sign_absent_of_isWordStart {sign text : List Char} {negative : Bool}
    (hsign : Sign sign negative) (hstart : ∀ c ∈ (sign ++ text).head?, isWordStart c) :
    sign = [] ∧ negative = false := by
  cases hsign with
  | absent => exact ⟨rfl, rfl⟩
  | plus => exact absurd (hstart '+' rfl) (by decide)
  | minus => exact absurd (hstart '-' rfl) (by decide)

/-- A number that starts like a word is a keyword without sign. -/
theorem keyword_of_spells {text : List Char} {n : Numeral} (hspells : Spells text n)
    (hstart : ∀ c ∈ text.head?, isWordStart c) : IsWord text ∧ keyword? false text = some n := by
  cases hspells with
  | nan hsign =>
      obtain ⟨rfl, rfl⟩ := sign_absent_of_isWordStart hsign hstart
      exact ⟨by simp [IsWord, isWordStart, isWordPart], by simp [keyword?]⟩
  | infinite hsign hword =>
      obtain ⟨rfl, rfl⟩ := sign_absent_of_isWordStart hsign hstart
      rcases hword with rfl | rfl
      · exact ⟨by simp [IsWord, isWordStart, isWordPart], by simp [keyword?]⟩
      · exact ⟨by simp [IsWord, isWordStart, isWordPart], by simp [keyword?]⟩
  | @decimal sign text negative significand exponent hsign hdecimal =>
      obtain ⟨rfl, rfl⟩ := sign_absent_of_isWordStart hsign hstart
      have hne := (HasText.numeral (.decimal .absent hdecimal)).ne_nil
      obtain ⟨c, rest, rfl⟩ := List.exists_cons_of_ne_nil hne
      have hc := (not_sign_of_decimal (head_decimal_append hdecimal [] c (by simp))).2
      rw [hstart c (by simp)] at hc
      cases hc

private theorem scan_number {c : Char} {text rest : List Char} {n : Numeral}
    (hspells : Spells (c :: text) n) (hrest : Ends rest) :
    ∃ token, scan c (text ++ rest) = (token, (c :: text).length) ∧
      token.number? = some n.toFloat := by
  by_cases hstart : isWordStart c
  · obtain ⟨hword, hkeyword⟩ := keyword_of_spells hspells (by simpa using hstart)
    exact ⟨.word (c :: text), scan_word hword hrest, by rw [number?, hkeyword]; rfl⟩
  · refine ⟨.numeral n, ?_, rfl⟩
    have hscan := scanNumeral_append hspells hrest
    rw [List.cons_append] at hscan
    simp only [scan, if_neg hstart, hscan]

/-- The marks of the grammar. -/
def marks : List Char := ['(', ')', '[', ']', ',']

private theorem scan_mark {c : Char} (hc : c ∈ marks) (rest : List Char) :
    scan c rest = (.mark c, 1) := by
  simp only [marks, List.mem_cons, List.not_mem_nil, or_false] at hc
  rcases hc with rfl | rfl | rfl | rfl | rfl <;> rfl

end Token

/-! ## Whole texts -/

private theorem toLower_of_decimal {c : Char} (hc : c.isDigit ∨ c = '.') : c.toLower = c := by
  have halpha := (Bool.or_eq_false_iff.mp (Token.not_sign_of_decimal hc).2).1
  have hupper : c.isUpper = false := (Bool.or_eq_false_iff.mp halpha).1
  rw [Char.toLower, dif_neg]
  simpa [Char.isUpper] using hupper

/-- A numeral of the grammar is also read as a whole text, with the same meaning. -/
theorem Numeral.ofChars?_of_spells {text : List Char} {n : Numeral} (hspells : Spells text n) :
    Numeral.ofChars? text = some n := by
  cases hspells with
  | @nan sign negative hsign =>
      have hscan : Numeral.scanSign (sign ++ "NaN".toList) = (negative, sign.length) :=
        Numeral.scanSign_append hsign (by simp)
      have hlower : String.ofList ("NaN".toList.map Char.toLower) = "nan" := by decide
      simp only [Numeral.ofChars?, hscan, List.drop_left, hlower]
      simp
  | @infinite sign word negative hsign hword =>
      have hscan : Numeral.scanSign (sign ++ word) = (negative, sign.length) :=
        Numeral.scanSign_append hsign (by rcases hword with rfl | rfl <;> simp)
      have hlower : String.ofList (word.map Char.toLower) = "inf" ∨
          String.ofList (word.map Char.toLower) = "infinity" := by
        rcases hword with rfl | rfl
        · exact .inl (by decide)
        · exact .inr (by decide)
      simp only [Numeral.ofChars?, hscan, List.drop_left, if_pos hlower]
  | @decimal sign text negative significand exponent hsign hdecimal =>
      have hhead := Token.head_decimal_append hdecimal []
      rw [List.append_nil] at hhead
      have hscan : Numeral.scanSign (sign ++ text) = (negative, sign.length) :=
        Numeral.scanSign_append hsign fun c hc => (Token.not_sign_of_decimal (hhead c hc)).1
      have hdecimal' := Numeral.scanDecimal_append hdecimal ends_nil
      rw [List.append_nil] at hdecimal'
      have hword : ∀ word ∈ ["inf", "infinity", "nan"],
          String.ofList (text.map Char.toLower) ≠ word := by
        -- The first character stays itself, and no word starts like a decimal.
        obtain ⟨c, rest, rfl⟩ := List.exists_cons_of_ne_nil
          (Token.HasText.numeral (.decimal .absent hdecimal)).ne_nil
        intro word hmem heq
        have hlower := toLower_of_decimal (hhead c rfl)
        rw [← String.toList_inj, String.toList_ofList, List.map_cons, hlower] at heq
        simp only [List.mem_cons, List.not_mem_nil, or_false] at hmem
        rcases hmem with rfl | rfl | rfl <;>
          · obtain rfl := (List.cons.inj heq).1
            exact absurd (hhead _ rfl) (by decide)
      simp only [Numeral.ofChars?, hscan, List.drop_left, hdecimal', if_true]
      rw [if_neg, if_neg]
      · exact hword "nan" (by simp)
      · exact not_or.mpr ⟨hword "inf" (by simp), hword "infinity" (by simp)⟩

/-! ## Lexemes -/

theorem lexemesFrom_cons {c : Char} (hc : Text.isSpace c = false) (offset : Nat)
    (rest : List Char) :
    lexemesFrom offset (c :: rest) = ⟨offset, (Token.scan c rest).1⟩ ::
      lexemesFrom (offset + (Token.scan c rest).2) (rest.drop ((Token.scan c rest).2 - 1)) := by
  rw [lexemesFrom, if_neg (by simp [hc])]

/-- Spaces only move the offset. -/
theorem lexemesFrom_spaces {spaces : List Char} (hspaces : Spaces spaces) (offset : Nat)
    (rest : List Char) :
    lexemesFrom offset (spaces ++ rest) = lexemesFrom (offset + spaces.length) rest := by
  induction spaces generalizing offset with
  | nil => rfl
  | cons c spaces ih =>
      rw [List.cons_append, lexemesFrom, if_pos (hspaces c (by simp)),
        ih (fun d hd => hspaces d (by simp [hd])), List.length_cons, Nat.add_assoc, Nat.add_comm 1]

/-- A piece that the scanner takes becomes the first lexeme. -/
theorem lexemesFrom_append {c : Char} {spaces text rest : List Char} {token : Token}
    (hspaces : Spaces spaces) (hc : Text.isSpace c = false)
    (hscan : Token.scan c (text ++ rest) = (token, (c :: text).length)) (offset : Nat) :
    ∃ start stop, lexemesFrom offset (spaces ++ (c :: text ++ rest)) =
      ⟨start, token⟩ :: lexemesFrom stop rest := by
  refine ⟨offset + spaces.length, offset + spaces.length + (c :: text).length, ?_⟩
  rw [lexemesFrom_spaces hspaces, List.cons_append, lexemesFrom_cons hc, hscan]
  simp

private theorem isSpace_of_isWordStart {c : Char} (hc : isWordStart c) :
    Text.isSpace c = false := by
  by_contra hspace
  simp only [Text.isSpace, Bool.not_eq_false, Bool.or_eq_true, beq_iff_eq] at hspace
  rcases hspace with ((rfl | rfl) | rfl) | rfl <;> exact absurd hc (by decide)

/-- In front of something that ends it, a word becomes the first lexeme. -/
theorem lexemesFrom_word {spaces text rest : List Char} (hspaces : Spaces spaces)
    (hword : IsWord text) (hrest : Ends rest) (offset : Nat) :
    ∃ start stop, lexemesFrom offset (spaces ++ (text ++ rest)) =
      ⟨start, .word text⟩ :: lexemesFrom stop rest := by
  cases text with
  | nil => exact hword.elim
  | cons c text =>
      exact lexemesFrom_append hspaces (isSpace_of_isWordStart hword.1)
        (Token.scan_word hword hrest) offset

private theorem isSpace_of_spells {c : Char} {text : List Char} {n : Numeral}
    (hspells : Spells (c :: text) n) : Text.isSpace c = false := by
  by_contra hspace
  simp only [Text.isSpace, Bool.not_eq_false, Bool.or_eq_true, beq_iff_eq] at hspace
  have hscan := Token.scanNumeral_append hspells ends_nil
  rcases hspace with ((rfl | rfl) | rfl) | rfl <;> cases hscan

/-- In front of something that ends it, a number becomes the first lexeme. -/
theorem lexemesFrom_number {spaces text rest : List Char} {x : Float} (hspaces : Spaces spaces)
    (hnumber : NumberText text x) (hrest : Ends rest) (offset : Nat) :
    ∃ start stop token, token.number? = some x ∧
      lexemesFrom offset (spaces ++ (text ++ rest)) = ⟨start, token⟩ :: lexemesFrom stop rest := by
  obtain ⟨n, hspells, hx⟩ := hnumber
  rw [Numeral.rounds_iff.mp hx]
  cases text with
  | nil => exact absurd rfl (Token.HasText.numeral hspells).ne_nil
  | cons c text =>
      obtain ⟨token, hscan, htoken⟩ := Token.scan_number hspells hrest
      obtain ⟨start, stop, h⟩ :=
        lexemesFrom_append hspaces (isSpace_of_spells hspells) hscan offset
      exact ⟨start, stop, token, htoken, h⟩

/-- A mark becomes the first lexeme, whatever follows. -/
theorem lexemesFrom_mark {spaces : List Char} {c : Char} (hspaces : Spaces spaces)
    (hc : c ∈ Token.marks) (rest : List Char) (offset : Nat) :
    ∃ start stop, lexemesFrom offset (spaces ++ c :: rest) =
      ⟨start, .mark c⟩ :: lexemesFrom stop rest := by
  have hmarks : Token.marks.all (!Text.isSpace ·) = true := by decide
  have hspace : Text.isSpace c = false := by simpa using List.all_eq_true.mp hmarks c hc
  have hscan : Token.scan c ([] ++ rest) = (.mark c, [c].length) := Token.scan_mark hc rest
  exact lexemesFrom_append hspaces hspace hscan offset

/-- The first lexeme closes the text or has a text of its own in front of the others. -/
theorem exists_text_of_lexemesFrom {offset : Nat} {cs : List Char} {lexeme : Lexeme}
    {others : List Lexeme} (h : lexemesFrom offset cs = lexeme :: others) :
    lexeme.token = .finish ∧ Spaces cs ∨
      ∃ spaces text rest, cs = spaces ++ (text ++ rest) ∧ Spaces spaces ∧
        lexeme.token.HasText text ∧
        others = lexemesFrom (offset + (spaces ++ text).length) rest := by
  induction cs generalizing offset with
  | nil =>
      rw [lexemesFrom] at h
      cases h
      exact .inl ⟨rfl, spaces_nil⟩
  | cons c cs ih =>
      by_cases hspace : Text.isSpace c
      · rw [lexemesFrom, if_pos hspace] at h
        have hcons : ∀ spaces, Spaces spaces → Spaces (c :: spaces) := by
          intro spaces hspaces d hd
          rcases List.mem_cons.mp hd with rfl | hd
          · exact hspace
          · exact hspaces d hd
        rcases ih h with ⟨hfinish, hspaces⟩ | ⟨spaces, text, rest, rfl, hspaces, htext, rfl⟩
        · exact .inl ⟨hfinish, hcons cs hspaces⟩
        · refine .inr ⟨c :: spaces, text, rest, rfl, hcons spaces hspaces, htext, ?_⟩
          rw [List.cons_append, List.length_cons, Nat.add_assoc, Nat.add_comm 1]
      · rw [lexemesFrom_cons (by simpa using hspace)] at h
        cases h
        have htext := Token.scan_sound c cs
        -- No text is empty, so the scanner has moved on.
        obtain ⟨size, hsize⟩ : ∃ size, (Token.scan c cs).2 = size + 1 :=
          Nat.exists_eq_succ_of_ne_zero fun hzero => htext.ne_nil (by rw [hzero, List.take_zero])
        have hle := Token.scan_le c cs
        rw [hsize, List.length_cons] at hle
        refine .inr ⟨[], _, cs.drop size, ?_, spaces_nil, htext, ?_⟩
        · simp [hsize]
        · simp [hsize, Nat.le_of_succ_le_succ hle]

end PNorm
