import PNorm.Proofs.Call.Reading

/-!
# Rules at the front of a text

`Matches rule cs` says in terms of the grammar that `rule` can be taken from the
front of `cs`, whatever follows.  It is the measure for what a refusal says.  A
rule matches exactly where the reader takes it (`matches_iff_takes`), whatever is
on record then.

Only one rule looks beyond its own text.  A keyword is no number if it goes on as
a longer word, so `info` starts with no number, while `1x` starts with one.

`Matches` is defined by the grammar alone and never mentions a lexeme.  A rule of
one lexeme gets a lemma such as `matches_number_iff`, which turns the condition on
the text into one on the next token; the reader decides by the latter.  A rule
with parts is put together from these (`matches_arg_iff_or`).
-/

namespace PNorm

open Grammar

/-- A rule can be taken from the front of a text. -/
inductive Grammar.Matches : Rule → List Char → Prop
  | finish : Matches .finish []
  | program {text : List Char} {result : Call} (htext : CallText text result) :
      Matches .program text
  | call {text rest : List Char} {result : Call} (htext : CallText text result) :
      Matches .call (text ++ rest)
  | vectorArgument {cs : List Char} (hcs : Matches .vector cs) : Matches .arg cs
  | numberArgument {cs : List Char} (hcs : Matches .number cs) : Matches .arg cs
  | identifierArgument {cs : List Char} (hcs : Matches .identifier cs) : Matches .arg cs
  | vector {text rest : List Char} {values : List Float} (htext : VectorText text values) :
      Matches .vector (text ++ rest)
  | keyword {sign word rest : List Char} {negative : Bool} (hsign : Sign sign negative)
      (hword : word ∈ keywords) (hrest : ∀ c ∈ rest.head?, isWordPart c = false) :
      Matches .number (sign ++ (word ++ rest))
  | decimal {sign text rest : List Char} {negative : Bool} {significand : Nat} {exponent : ℤ}
      (hsign : Sign sign negative) (htext : Unsigned text significand exponent) :
      Matches .number (sign ++ (text ++ rest))
  | identifier {text rest : List Char} (hword : IsWord text) : Matches .identifier (text ++ rest)

/-! ## The next token -/

/-- No space is at the front. -/
def Grammar.Ready (cs : List Char) : Prop :=
  ∀ c ∈ cs.head?, Text.isSpace c = false

namespace Token

/-- The token at the front of a text without spaces there. -/
def next : List Char → Token
  | [] => .finish
  | c :: rest => (scan c rest).1

end Token

theorem head_dropWhile (p : Char → Bool) (cs : List Char) :
    ∀ c ∈ (cs.dropWhile p).head?, p c = false := by
  intro c hc
  have hhead := List.head?_dropWhile_not p cs
  rwa [Option.mem_def.mp hc] at hhead

/-- Every text is ready behind its leading spaces. -/
theorem exists_ready (cs : List Char) :
    ∃ spaces rest, cs = spaces ++ rest ∧ Spaces spaces ∧ Ready rest := by
  refine ⟨cs.takeWhile Text.isSpace, cs.dropWhile Text.isSpace,
    List.takeWhile_append_dropWhile.symm, fun c hc => List.mem_takeWhile_imp hc, ?_⟩
  exact head_dropWhile Text.isSpace cs

theorem Grammar.Ready.spaces_eq_nil {spaces rest : List Char} (hready : Ready (spaces ++ rest))
    (hspaces : Spaces spaces) : spaces = [] := by
  cases spaces with
  | nil => rfl
  | cons c spaces =>
      have hspace := hspaces c List.mem_cons_self
      rw [hready c rfl] at hspace
      cases hspace

theorem lexemesFrom_ready {cs : List Char} (hcs : Ready cs) (offset : Nat) :
    ∃ others, lexemesFrom offset cs = ⟨offset, Token.next cs⟩ :: others := by
  cases cs with
  | nil => exact ⟨[], by rw [lexemesFrom]; rfl⟩
  | cons c rest => exact ⟨_, lexemesFrom_cons (hcs c rfl) offset rest⟩

/-! ## Numbers -/

namespace Numeral

/-- A decimal is found if there is a digit in front or behind a leading point. -/
theorem scanDecimal_isSome_iff (cs : List Char) :
    (scanDecimal cs).isSome ↔ cs.takeWhile Char.isDigit ≠ [] ∨
      (scanFraction (cs.drop (cs.takeWhile Char.isDigit).length)).1 ≠ [] := by
  simp only [scanDecimal]
  by_cases hnone : cs.takeWhile Char.isDigit = [] ∧
      (scanFraction (cs.drop (cs.takeWhile Char.isDigit).length)).1 = []
  · rw [if_pos hnone]
    refine iff_of_false (by simp) ?_
    rintro (hwhole | hfraction)
    · exact hwhole hnone.1
    · exact hfraction hnone.2
  · rw [if_neg hnone]
    simpa using not_and_or.mp hnone

/-- Whatever follows a decimal, one is found. -/
theorem scanDecimal_isSome {text rest : List Char} {significand : Nat} {exponent : ℤ}
    (htext : Unsigned text significand exponent) : (scanDecimal (text ++ rest)).isSome := by
  obtain @⟨mantissa, power, whole, fraction, exponent, hmantissa, hpower⟩ := htext
  have htake : ∀ {digits more : List Char}, digits ≠ [] → Digits digits →
      (digits ++ more).takeWhile Char.isDigit ≠ [] := by
    intro digits more hne hdigits
    rw [List.takeWhile_append_of_pos hdigits]
    simp [hne]
  rw [scanDecimal_isSome_iff, List.append_assoc]
  cases hmantissa with
  | whole hne hwhole => exact .inl (htake hne hwhole)
  | pointed hne hwhole hfraction =>
      rw [List.append_assoc]
      exact .inl (htake hne hwhole)
  | fraction hne hfraction => exact .inr (htake hne hfraction)

end Numeral

namespace Token

private theorem keyword?_isSome {word : List Char} (hword : word ∈ keywords) (negative : Bool) :
    (keyword? negative word).isSome := by
  rw [Option.isSome_iff_ne_none, ne_eq, keyword?_eq_none_iff, not_not]
  exact hword

/-- A sign that is there starts no word. -/
theorem not_isWordStart_of_sign {sign text : List Char} {negative : Bool}
    (hsign : Sign sign negative) (htext : ∀ c ∈ text.head?, isWordStart c = false) :
    ∀ c ∈ (sign ++ text).head?, isWordStart c = false := by
  cases hsign with
  | absent => exact htext
  | plus =>
      rintro c ⟨⟩
      decide
  | minus =>
      rintro c ⟨⟩
      decide

/-- Where a number is scanned and no word starts, the next token is a numeral. -/
theorem number?_of_scanNumeral {cs : List Char} (hscan : (scanNumeral cs).isSome)
    (hstart : ∀ c ∈ cs.head?, isWordStart c = false) : ((next cs).number?).isSome := by
  cases cs with
  | nil => cases hscan
  | cons c rest =>
      obtain ⟨⟨value, size⟩, hvalue⟩ := Option.isSome_iff_exists.mp hscan
      have hword : ¬ isWordStart c := by simpa using hstart c rfl
      rw [next, scan, if_neg hword, hvalue]
      rfl

private theorem matches_of_scanNumeral {cs : List Char} (hscan : (scanNumeral cs).isSome) :
    Matches .number cs := by
  obtain ⟨⟨n, size⟩, hvalue⟩ := Option.isSome_iff_exists.mp hscan
  have hsign := Numeral.scanSign_sound cs
  simp only [scanNumeral] at hvalue
  set signSize := (Numeral.scanSign cs).2
  rw [← List.take_append_drop signSize cs]
  by_cases hword : (cs.drop signSize).takeWhile isWordPart ∈ keywords
  · rw [← List.takeWhile_append_dropWhile (p := isWordPart) (l := cs.drop signSize)]
    exact .keyword hsign hword (head_dropWhile isWordPart (cs.drop signSize))
  · simp only [keyword?_eq_none_iff.mpr hword] at hvalue
    obtain ⟨scanned, hscanned, -⟩ := Option.map_eq_some_iff.mp hvalue
    rw [← List.take_append_drop scanned.size (cs.drop signSize)]
    exact .decimal hsign (Numeral.scanDecimal_sound hscanned)

/-- Where a number matches, the next token spells one. -/
theorem number?_of_matches {cs : List Char} (hcs : Matches .number cs) :
    ((next cs).number?).isSome := by
  cases hcs with
  | @keyword sign word rest negative hsign hword hrest =>
      have htake := takeWhile_keyword hword hrest
      have hkeyword := keyword?_isSome hword
      cases hsign with
      | absent =>
          -- Without a sign the keyword is taken as a word.
          obtain ⟨c, more, rfl, hc⟩ : ∃ c more, word = c :: more ∧ isWordStart c := by
            simp only [keywords, List.mem_cons, List.not_mem_nil, or_false] at hword
            rcases hword with rfl | rfl | rfl <;> exact ⟨_, _, rfl, by decide⟩
          simp only [List.nil_append, List.cons_append, next, scan, if_pos hc] at htake ⊢
          rw [htake, number?, Option.isSome_map]
          exact hkeyword false
      | plus =>
          -- With a sign it is taken by the scanner of numbers.
          refine number?_of_scanNumeral ?_ (by rintro c ⟨⟩; decide)
          obtain ⟨value, hvalue⟩ := Option.isSome_iff_exists.mp (hkeyword false)
          simp [scanNumeral, Numeral.scanSign, htake, hvalue]
      | minus =>
          refine number?_of_scanNumeral ?_ (by rintro c ⟨⟩; decide)
          obtain ⟨value, hvalue⟩ := Option.isSome_iff_exists.mp (hkeyword true)
          simp [scanNumeral, Numeral.scanSign, htake, hvalue]
  | @decimal sign text rest negative significand exponent hsign htext =>
      -- Digits or a point: no keyword can be meant, and no letter stands in front.
      have hhead := fun c hc => not_sign_of_decimal (head_decimal_append htext rest c hc)
      refine number?_of_scanNumeral ?_ (not_isWordStart_of_sign hsign fun c hc => (hhead c hc).2)
      have hscan : Numeral.scanSign (sign ++ (text ++ rest)) = (negative, sign.length) :=
        Numeral.scanSign_append hsign fun c hc => (hhead c hc).1
      simp only [scanNumeral, hscan, List.drop_left]
      split
      · rfl
      · rw [Option.isSome_map]
        exact Numeral.scanDecimal_isSome htext

/-- A number matches exactly where the next token spells one. -/
theorem matches_number_iff {cs : List Char} :
    Matches .number cs ↔ ((next cs).number?).isSome := by
  refine ⟨number?_of_matches, fun hnumber => ?_⟩
  cases cs with
  | nil => cases hnumber
  | cons c rest =>
      simp only [next, scan] at hnumber
      by_cases hstart : isWordStart c = true
      · rw [if_pos hstart] at hnumber
        have hword : (c :: rest).takeWhile isWordPart ∈ keywords := by
          by_contra hword
          rw [number?, keyword?_eq_none_iff.mpr hword] at hnumber
          cases hnumber
        have hmatches := Matches.keyword .absent hword (head_dropWhile isWordPart (c :: rest))
        rwa [List.nil_append, List.takeWhile_append_dropWhile] at hmatches
      · rw [if_neg hstart] at hnumber
        cases hscan : scanNumeral (c :: rest) with
        | some found => exact matches_of_scanNumeral (by rw [hscan]; rfl)
        | none =>
            rw [hscan] at hnumber
            cases hnumber

/-- An identifier matches exactly where the next token is a word. -/
theorem matches_identifier_iff {cs : List Char} :
    Matches .identifier cs ↔ ∃ text, next cs = .word text := by
  constructor
  · intro hmatches
    cases hmatches with
    | @identifier text rest hword =>
        cases text with
        | nil => exact hword.elim
        | cons c text =>
            refine ⟨((c :: text) ++ rest).takeWhile isWordPart, ?_⟩
            rw [List.cons_append, next, scan, if_pos hword.1]
  · rintro ⟨text, hnext⟩
    cases cs with
    | nil => cases hnext
    | cons c rest =>
        have htext := scan_sound c rest
        rw [next] at hnext
        rw [hnext] at htext
        rw [← List.take_append_drop (scan c rest).2 (c :: rest)]
        cases htext with
        | word hword => exact .identifier hword

end Token

/-! ## What the reader takes -/

namespace Call

variable {cs : List Char}

theorem matches_vector_iff (hcs : Ready cs) (offset : Nat) (seen : Attempts) :
    Matches .vector cs ↔ ((vector (lexemesFrom offset cs) seen).1).isSome := by
  constructor
  · intro hmatches
    cases hmatches with
    | vector htext =>
        obtain ⟨stop, after, h⟩ := vector_complete spaces_nil htext _ offset seen
        rw [List.nil_append] at h
        rw [h]
        rfl
  · intro h
    obtain ⟨⟨values, rest⟩, hvalues⟩ := Option.isSome_iff_exists.mp h
    obtain ⟨spaces, text, others, rfl, hspaces, htext, -⟩ :=
      readsText_vector.sound (Prod.ext hvalues rfl)
    obtain rfl := hcs.spaces_eq_nil hspaces
    rw [List.nil_append]
    exact .vector htext

theorem matches_call_iff (offset : Nat) (seen : Attempts) :
    Matches .call cs ↔ ((call (lexemesFrom offset cs) seen).1).isSome := by
  constructor
  · intro hmatches
    cases hmatches with
    | call htext =>
        obtain ⟨spaces, stop, after, -, h⟩ := call_complete htext _ offset seen
        rw [h]
        rfl
  · intro h
    obtain ⟨⟨result, rest⟩, hresult⟩ := Option.isSome_iff_exists.mp h
    obtain ⟨text, others, rfl, htext, -⟩ := call_sound (Prod.ext hresult rfl)
    exact .call htext

/-- A rule of one lexeme looks at the next token only. -/
theorem isSome_single {β : Type} {rule : Rule} {read : Token → Option β} (hcs : Ready cs)
    (offset : Nat) (seen : Attempts) :
    ((single rule read (lexemesFrom offset cs) seen).1).isSome = (read (Token.next cs)).isSome := by
  obtain ⟨others, hlexemes⟩ := lexemesFrom_ready hcs offset
  rw [hlexemes]
  cases hread : read (Token.next cs) with
  | none =>
      simp only [single, attempt, hread, Option.map_none]
      rfl
  | some value => rw [single_of_some hread, Option.isSome_some, Option.isSome_some]

theorem matches_number_iff (hcs : Ready cs) (offset : Nat) (seen : Attempts) :
    Matches .number cs ↔ ((number (lexemesFrom offset cs) seen).1).isSome := by
  rw [number, isSome_single hcs, Token.matches_number_iff]

theorem matches_identifier_iff (hcs : Ready cs) (offset : Nat) (seen : Attempts) :
    Matches .identifier cs ↔ ((identifier (lexemesFrom offset cs) seen).1).isSome := by
  rw [identifier, isSome_single hcs, Token.matches_identifier_iff]
  constructor
  · rintro ⟨text, hnext⟩
    rw [hnext]
    rfl
  · intro hread
    cases hnext : Token.next cs with
    | word text => exact ⟨text, rfl⟩
    | numeral | mark | finish =>
        rw [hnext] at hread
        cases hread

theorem matches_finish_iff (hcs : Ready cs) (offset : Nat) (seen : Attempts) :
    Matches .finish cs ↔ ((finish (lexemesFrom offset cs) seen).1).isSome := by
  rw [finish, isSome_single hcs]
  constructor
  · rintro ⟨⟩
    rfl
  · intro hread
    cases cs with
    | nil => exact .finish
    | cons c rest =>
        -- No text is scanned as the end.
        have htext := Token.scan_sound c rest
        rw [Token.next] at hread
        cases hscan : (Token.scan c rest).1 with
        | finish =>
            rw [hscan] at htext
            cases htext
        | word | numeral | mark =>
            rw [hscan] at hread
            cases hread

theorem matches_arg_iff_or :
    Matches .arg cs ↔ Matches .vector cs ∨ Matches .number cs ∨ Matches .identifier cs := by
  constructor
  · intro hmatches
    cases hmatches with
    | vectorArgument hcs => exact .inl hcs
    | numberArgument hcs => exact .inr (.inl hcs)
    | identifierArgument hcs => exact .inr (.inr hcs)
  · rintro (hcs | hcs | hcs)
    · exact .vectorArgument hcs
    · exact .numberArgument hcs
    · exact .identifierArgument hcs

/-- Each alternative is tried with what the one before has left on record. -/
theorem matches_arg_iff (hcs : Ready cs) (offset : Nat) (seen : Attempts) :
    Matches .arg cs ↔ ((argument (lexemesFrom offset cs) seen).1).isSome := by
  rw [matches_arg_iff_or, matches_vector_iff hcs offset seen, argument, attempt]
  cases vector (lexemesFrom offset cs) seen with
  | mk reading after =>
      cases reading with
      | some values => simp
      | none =>
          rw [matches_number_iff hcs offset after]
          cases hnumber : number (lexemesFrom offset cs) after with
          | mk reading after' =>
              cases reading with
              | some value => simp [hnumber]
              | none =>
                  rw [matches_identifier_iff hcs offset after']
                  cases hidentifier : identifier (lexemesFrom offset cs) after' with
                  | mk reading after'' =>
                      cases reading <;> simp [hnumber, hidentifier]

/-- So a rule that the reader refuses does not match. -/
theorem not_matches_of_none {β : Type} {rule : Rule} {reading : Reading β}
    (hiff : Matches rule cs ↔ (reading.1).isSome) (hnone : reading.1 = none) :
    ¬ Matches rule cs := by
  rw [hiff, hnone]
  simp

/-- Whether the reader takes a rule from the front of a text. -/
def takes (rule : Rule) (cs : List Char) : Bool :=
  match rule with
  | .finish => (finish (lexemes cs) .none).1.isSome
  | .program => (program (lexemes cs)).1.isSome
  | .call => (call (lexemes cs) .none).1.isSome
  | .arg => (argument (lexemes cs) .none).1.isSome
  | .vector => (vector (lexemes cs) .none).1.isSome
  | .number => (number (lexemes cs) .none).1.isSome
  | .identifier => (identifier (lexemes cs) .none).1.isSome

/-- **A rule matches exactly where the reader takes it.** -/
theorem matches_iff_takes (hcs : Ready cs) (rule : Rule) : Matches rule cs ↔ takes rule cs := by
  cases rule with
  | finish => exact matches_finish_iff hcs 0 .none
  | program =>
      rw [takes, Option.isSome_iff_exists]
      constructor
      · intro hprogram
        cases hprogram with
        | program htext => exact ⟨_, program_eq_some_iff.mpr htext⟩
      · rintro ⟨result, hresult⟩
        exact .program (program_eq_some_iff.mp hresult)
  | call => exact matches_call_iff 0 .none
  | arg => exact matches_arg_iff hcs 0 .none
  | vector => exact matches_vector_iff hcs 0 .none
  | number => exact matches_number_iff hcs 0 .none
  | identifier => exact matches_identifier_iff hcs 0 .none

end Call

end PNorm
