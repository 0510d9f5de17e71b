import PNorm.Config.Json
import PNorm.Proofs.Call.Lexing
import PNorm.Proofs.Json.Grammar

/-!
# The readers take what the grammar says

Each reader of `PNorm.Config.Json`, set on a text that starts with something the
grammar knows, takes exactly that and leaves the rest.  A string and a bracket
show their own end.  A number does not, so it needs something behind it that
cannot belong to it (`Closes`); inside a document that is always so.

There are two readers of strings.  `skipString` only finds the end and checks the
escapes one by one.  `takeString` makes the text as well, and it refuses a string
whose pieces form none; this is decided piece by piece, and `takeString_content`
shows that it comes to what `Piece.text?` says of the whole.
-/

namespace PNorm.Json

open Grammar (Spaces Digits Power ListText MoreText EndsNumber)

/-! ## Spaces and colons -/

theorem skipSpaces_append {spaces : List Char} (hspaces : Spaces spaces) (rest : List Char) :
    skipSpaces (spaces ++ rest) = skipSpaces rest :=
  List.dropWhile_append_of_pos hspaces

theorem skipSpaces_cons {c : Char} (hc : Text.isSpace c = false) (rest : List Char) :
    skipSpaces (c :: rest) = c :: rest := by
  simp [skipSpaces, hc]

theorem skipSpaces_eq_nil {spaces : List Char} (hspaces : Spaces spaces) :
    skipSpaces spaces = [] := by
  simpa [skipSpaces] using skipSpaces_append hspaces []

theorem takeColon_append {spaces : List Char} (hspaces : Spaces spaces) (rest : List Char) :
    takeColon (spaces ++ ':' :: rest) = .ok rest := by
  rw [takeColon, skipSpaces_append hspaces, skipSpaces_cons (by decide)]
  rfl

theorem takeWord_append (word rest : List Char) : takeWord word (word ++ rest) = .ok rest := by
  induction word with
  | nil => rfl
  | cons c word ih => simpa [takeWord] using ih

/-! ## Strings -/

theorem hexDigit?_of_hexDigit {c : Char} {n : Nat} (hdigit : HexDigit c n) :
    hexDigit? c = some n := by
  have hall : ∀ n < 16, hexDigit? (Nat.digitChar n) = some n ∧
      hexDigit? (Nat.digitChar n).toUpper = some n := by decide
  rcases hdigit with ⟨hn, rfl | rfl⟩
  · exact (hall n hn).1
  · exact (hall n hn).2

theorem escaped?_of_mem {c value : Char} (hescape : (c, value) ∈ shortEscapes) :
    escaped? c = some value := by
  have hall : ∀ pair ∈ shortEscapes, escaped? pair.1 = some pair.2 := by decide
  exact hall _ hescape

/-- No short escape is written with the letter of the long ones. -/
theorem ne_unit_of_mem {c value : Char} (hescape : (c, value) ∈ shortEscapes) : c ≠ 'u' := by
  have hall : ∀ pair ∈ shortEscapes, pair.1 ≠ 'u' := by decide
  exact hall _ hescape

section Hexadecimal

variable {c₃ c₂ c₁ c₀ : Char} {n₃ n₂ n₁ n₀ : Nat}

theorem takeHex_of_hexDigits (h₃ : HexDigit c₃ n₃) (h₂ : HexDigit c₂ n₂) (h₁ : HexDigit c₁ n₁)
    (h₀ : HexDigit c₀ n₀) (rest : List Char) :
    takeHex (c₃ :: c₂ :: c₁ :: c₀ :: rest) =
      .ok (((n₃ * 16 + n₂) * 16 + n₁) * 16 + n₀, rest) := by
  have hbytes : ¬ Text.byteLength ((c₃ :: c₂ :: c₁ :: c₀ :: rest).take 4) < 4 :=
    Nat.not_lt.mpr (Text.length_le_byteLength [c₃, c₂, c₁, c₀])
  simp only [takeHex, if_neg hbytes, hexDigit?_of_hexDigit h₃, hexDigit?_of_hexDigit h₂,
    hexDigit?_of_hexDigit h₁, hexDigit?_of_hexDigit h₀]

private theorem skipEscape_unit (h₃ : HexDigit c₃ n₃) (h₂ : HexDigit c₂ n₂) (h₁ : HexDigit c₁ n₁)
    (h₀ : HexDigit c₀ n₀) (rest : List Char) :
    skipEscape ('u' :: c₃ :: c₂ :: c₁ :: c₀ :: rest) = .ok rest := by
  simp only [skipEscape, takeHex_of_hexDigits h₃ h₂ h₁ h₀ rest]

end Hexadecimal

/-! ### Strings that are passed over -/

private theorem skipEscape_of_mem {c value : Char} (hescape : (c, value) ∈ shortEscapes)
    (rest : List Char) : skipEscape (c :: rest) = .ok rest := by
  have hunit := ne_unit_of_mem hescape
  simp [skipEscape, escaped?_of_mem hescape]

theorem skipString_escape {cs rest : List Char} (hescape : skipEscape cs = .ok rest) :
    skipString ('\\' :: cs) = skipString rest := by
  rw [skipString]
  split
  · simp_all
  · simp_all

private theorem skipString_piece {text : List Char} {piece : Piece} (hpiece : PieceText text piece)
    (rest : List Char) : skipString (text ++ rest) = skipString rest := by
  cases hpiece with
  | plain hcontrol hquote hbackslash =>
      rw [List.singleton_append, skipString.eq_def]
      simp only [Nat.not_lt.mpr hcontrol, if_false]
  | short hescape => exact skipString_escape (skipEscape_of_mem hescape rest)
  | unit h₃ h₂ h₁ h₀ => exact skipString_escape (skipEscape_unit h₃ h₂ h₁ h₀ rest)

theorem skipString_content {content : List Char} {pieces : List Piece}
    (hcontent : ContentText content pieces) (rest : List Char) :
    skipString (content ++ '"' :: rest) = .ok rest := by
  induction hcontent with
  | nil => simp [skipString]
  | cons hpiece _ ih => rw [List.append_assoc, skipString_piece hpiece, ih]

/-! ### Strings that are read -/

private theorem takeEscape_of_mem {c value : Char} (hescape : (c, value) ∈ shortEscapes)
    (rest : List Char) : takeEscape (c :: rest) = .ok (value, rest) := by
  have hunit := ne_unit_of_mem hescape
  simp [takeEscape, escaped?_of_mem hescape]

/-- A reader of strings goes on behind a character that it has read. -/
theorem takeString_escape (cs : List Char) :
    takeString ('\\' :: cs) = (takeEscape cs).bind fun (c, rest) =>
      (takeString rest).map fun (content, rest) => (c :: content, rest) := by
  rw [takeString]
  rcases takeEscape cs with fault | ⟨c, rest⟩
  · rfl
  · simp only [Except.bind]
    cases takeString rest with
    | error fault => rfl
    | ok result => rfl

private theorem takeString_plain {c : Char} (hcontrol : 0x20 ≤ c.toNat) (hquote : c ≠ '"')
    (hbackslash : c ≠ '\\') (rest : List Char) :
    takeString (c :: rest) = (takeString rest).map fun (content, rest) => (c :: content, rest) := by
  rw [takeString.eq_def]
  simp only [Nat.not_lt.mpr hcontrol, if_false]
  cases takeString rest with
  | error fault => rfl
  | ok result => rfl

/-- A code unit that is not the first half of a pair stands for a character by itself. -/
theorem takeString_unit {text : List Char} {code : Nat} (hpiece : PieceText text (.unit code))
    (rest : List Char) :
    takeString (text ++ rest) =
      (if 0xDC00 ≤ code ∧ code ≤ 0xDFFF then .error .malformed
        else if 0xD800 ≤ code ∧ code ≤ 0xDBFF then takeLowSurrogate code rest
        else .ok (Char.ofNat code, rest) : Except Fault (Char × List Char)).bind fun (c, rest) =>
          (takeString rest).map fun (content, rest) => (c :: content, rest) := by
  cases hpiece with
  | unit h₃ h₂ h₁ h₀ =>
      simp only [List.cons_append, List.nil_append, takeString_escape, takeEscape,
        takeHex_of_hexDigits h₃ h₂ h₁ h₀]

/-- The second half of a pair has to be a code unit of its own kind. -/
theorem takeLowSurrogate_unit (high : Nat) {text : List Char} {low : Nat}
    (hpiece : PieceText text (.unit low)) (rest : List Char) :
    takeLowSurrogate high (text ++ rest) =
      if 0xDC00 ≤ low ∧ low ≤ 0xDFFF then
        .ok (Char.ofNat (0x10000 + (high - 0xD800) * 0x400 + (low - 0xDC00)), rest)
      else .error .malformed := by
  cases hpiece with
  | unit h₃ h₂ h₁ h₀ =>
      simp only [List.cons_append, List.nil_append, takeLowSurrogate,
        takeHex_of_hexDigits h₃ h₂ h₁ h₀]

/-- No second half follows where the string ends or goes on with a character. -/
theorem takeLowSurrogate_fault (high : Nat) {content : List Char} {pieces : List Piece}
    (hcontent : ContentText content pieces) (hpieces : ∀ low more, pieces ≠ .unit low :: more)
    (rest : List Char) :
    takeLowSurrogate high (content ++ '"' :: rest) = .error .malformed := by
  cases hcontent with
  | nil => rfl
  | cons hpiece hrest =>
      cases hpiece with
      | plain hcontrol hquote hbackslash =>
          unfold takeLowSurrogate
          split <;> simp_all
      | short hescape =>
          have hunit := ne_unit_of_mem hescape
          unfold takeLowSurrogate
          split <;> simp_all
      | unit => exact absurd rfl (hpieces _ _)

/-- A string is read as the text that its pieces form. -/
theorem takeString_content {content : List Char} {pieces : List Piece}
    (hcontent : ContentText content pieces) (rest : List Char) :
    takeString (content ++ '"' :: rest) =
      (Piece.text? pieces).elim (.error .malformed) fun text => .ok (text, rest) := by
  -- A character in front of a text goes in front of what is read.
  have hmap : ∀ (c : Char) (text? : Option (List Char)),
      (text?.elim (.error .malformed) fun text => .ok (text, rest) :
          Except Fault (List Char × List Char)).map (fun (content, rest) => (c :: content, rest)) =
        (text?.map (c :: ·)).elim (.error .malformed) fun text => .ok (text, rest) := by
    intro c text?
    cases text? <;> rfl
  -- The cases are those of `Piece.text?`: a character, half a pair that stands alone, and a whole
  -- pair.
  fun_induction Piece.text? pieces generalizing content with
  | case1 =>
      cases hcontent
      simp [takeString]
  | case2 c pieces ih =>
      cases hcontent with
      | cons hpiece hrest =>
          rw [← hmap, ← ih hrest, List.append_assoc]
          cases hpiece with
          | plain hcontrol hquote hbackslash => exact takeString_plain hcontrol hquote hbackslash _
          | short hescape =>
              rw [List.cons_append, List.singleton_append, takeString_escape,
                takeEscape_of_mem hescape]
              rfl
  | case3 code pieces htrail =>
      cases hcontent with
      | cons hpiece hrest =>
          rw [List.append_assoc, takeString_unit hpiece, if_pos htrail]
          rfl
  | case4 code htrail hlead low more hlow ih =>
      cases hcontent with
      | cons hpiece hrest =>
          cases hrest with
          | cons hsecond hmore =>
              rw [← hmap, ← ih hmore, List.append_assoc, List.append_assoc, takeString_unit hpiece,
                if_neg htrail, if_pos hlead, takeLowSurrogate_unit code hsecond, if_pos hlow]
              rfl
  | case5 code htrail hlead low more hlow =>
      cases hcontent with
      | cons hpiece hrest =>
          cases hrest with
          | cons hsecond hmore =>
              rw [List.append_assoc, List.append_assoc, takeString_unit hpiece, if_neg htrail,
                if_pos hlead, takeLowSurrogate_unit code hsecond, if_neg hlow]
              rfl
  | case6 code pieces htrail hlead hpieces =>
      cases hcontent with
      | cons hpiece hrest =>
          rw [List.append_assoc, takeString_unit hpiece, if_neg htrail, if_pos hlead,
            takeLowSurrogate_fault code hrest hpieces]
          rfl
  | case7 code pieces htrail hlead ih =>
      cases hcontent with
      | cons hpiece hrest =>
          rw [← hmap, ← ih hrest, List.append_assoc, takeString_unit hpiece, if_neg htrail,
            if_neg hlead]
          rfl

/-! ## Numbers -/

/-- The characters that can follow a value in a document. -/
def closesValue (c : Char) : Bool :=
  Text.isSpace c || c == ',' || c == ']' || c == '}'

/-- The text is over, or it goes on with a character that can follow a value. -/
def Closes (rest : List Char) : Prop :=
  ∀ c ∈ rest.head?, closesValue c

theorem closes_nil : Closes [] := by simp [Closes]

theorem closes_cons {c : Char} {rest : List Char} (hc : closesValue c) : Closes (c :: rest) := by
  simpa [Closes] using hc

theorem Closes.spaces_append {spaces rest : List Char} (hspaces : Spaces spaces)
    (hrest : Closes rest) : Closes (spaces ++ rest) := by
  cases spaces with
  | nil => exact hrest
  | cons c spaces =>
      refine closes_cons ?_
      simp [closesValue, hspaces c (by simp)]

theorem Closes.endsNumber {rest : List Char} (hrest : Closes rest) : EndsNumber rest := by
  intro c hc
  have hcloses := hrest c hc
  simp only [closesValue, Text.isSpace, Bool.or_eq_true, beq_iff_eq] at hcloses
  rcases hcloses with (((((rfl | rfl) | rfl) | rfl) | rfl) | rfl) | rfl <;> decide

section Numbers

variable {rest : List Char} (atEnd : Fault)

theorem takeDigits_append {digits : List Char} (hne : digits ≠ []) (hdigits : Digits digits)
    (hrest : ∀ c ∈ rest.head?, c.isDigit = false) :
    takeDigits atEnd (digits ++ rest) = .ok rest := by
  have hdrop := dropWhile_append_of_head hdigits hrest
  cases digits with
  | nil => exact absurd rfl hne
  | cons c digits =>
      rw [List.cons_append] at hdrop ⊢
      rw [takeDigits, if_pos (hdigits c (by simp)), hdrop]

theorem takeExponent_append {power : List Char} {exponent : ℤ} (hpower : Power power exponent)
    (hrest : EndsNumber rest) : takeExponent atEnd (power ++ rest) = .ok rest := by
  cases hpower with
  | absent =>
      cases rest with
      | nil => rfl
      | cons c rest =>
          obtain ⟨-, -, hlower, hupper⟩ := hrest c (by simp)
          simp [takeExponent, hlower, hupper]
  | @present c sign digits negative hletter hsign hne hdigits =>
      have hscan : Numeral.scanSign (sign ++ (digits ++ rest)) = (negative, sign.length) :=
        Numeral.scanSign_append hsign
          (head_append_of_ne_nil hne fun c hc => Numeral.not_sign_of_isDigit (hdigits c hc))
      rw [List.cons_append, List.append_assoc, takeExponent, if_pos hletter, hscan, List.drop_left]
      exact takeDigits_append atEnd hne hdigits fun c hc => (hrest c hc).1

private theorem takeFraction_append {fraction power : List Char} {exponent : ℤ}
    (hfraction : Fraction fraction) (hpower : Power power exponent) (hrest : EndsNumber rest) :
    takeFraction atEnd (fraction ++ (power ++ rest)) = .ok rest := by
  have hhead := Numeral.head_power_append hpower hrest
  cases hfraction with
  | absent =>
      have htake := takeExponent_append atEnd hpower hrest
      rw [List.nil_append]
      rw [takeFraction, htake]
      intro tail hpoint
      exact (hhead '.' (by simp [hpoint])).2 rfl
  | present hne hdigits =>
      rw [List.cons_append, takeFraction,
        takeDigits_append atEnd hne hdigits fun c hc => (hhead c hc).1]
      exact takeExponent_append atEnd hpower hrest

/-- No digit follows the digits before the point. -/
theorem head_fraction_append {fraction power : List Char} {exponent : ℤ}
    (hfraction : Fraction fraction) (hpower : Power power exponent) (hrest : EndsNumber rest) :
    ∀ c ∈ (fraction ++ (power ++ rest)).head?, c.isDigit = false := by
  cases hfraction with
  | absent => exact fun c hc => (Numeral.head_power_append hpower hrest c hc).1
  | present =>
      rintro c ⟨⟩
      decide

theorem takeNumber_append {text : List Char} (hmagnitude : Magnitude text)
    (hrest : EndsNumber rest) : takeNumber atEnd (text ++ rest) = .ok rest := by
  obtain @⟨whole, fraction, power, exponent, hwhole, hfraction, hpower⟩ := hmagnitude
  have hhead := head_fraction_append hfraction hpower hrest
  have htake := takeFraction_append atEnd hfraction hpower hrest
  rw [List.append_assoc, List.append_assoc]
  generalize fraction ++ (power ++ rest) = behind at hhead htake
  cases hwhole with
  | zero =>
      cases behind with
      | nil => simpa [takeNumber, takeFraction, takeExponent] using htake
      | cons c behind => simpa [takeNumber, hhead c (by simp)] using htake
  | digits hc hzero hdigits =>
      simp [takeNumber, if_pos hc, dropWhile_append_of_head hdigits hhead, htake]

end Numbers

end PNorm.Json
