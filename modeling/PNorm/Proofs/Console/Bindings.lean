import PNorm.Console.Binding
import PNorm.Proofs.Call.Lexing

/-!
# Bindings and the grammar

A binding is read without the grammar of calls: the text is cut at the first
equals sign, trimmed, freed of brackets and cut again at the commas.  It reads
every number and every vector of the grammar as what it stands for there, and a
vector also without its brackets (`readScalar_of_numberText`,
`readVector_of_vectorText`, `readVector_of_inside`).

All of it rests on what a number is made of.  None of its characters is blank,
an equals sign, a comma or a bracket (`isNumberPart_of_numberText`), so the cuts
never go through a number.

The brackets are taken off before the list is cut, as many as there are at the two ends
of the text.  So it has to be shown that what is inside the brackets neither begins nor
ends with one (`isListPart_of_inside`).  Spaces need the same argument: a list begins
and ends with a number, and trimming takes nothing from it (`trim_list`).
-/

namespace PNorm

open Grammar

/-! ## Cutting off both ends -/

/-- What is to be cut off at the ends is cut off, and no more. -/
theorem strip_append {p q : Char → Bool} {before text after : List Char}
    (hbefore : ∀ c ∈ before, p c) (hafter : ∀ c ∈ after, q c)
    (hhead : ∀ c ∈ (text ++ after).head?, p c = false)
    (hlast : ∀ c ∈ text.getLast?, q c = false) :
    (((before ++ (text ++ after)).dropWhile p).reverse.dropWhile q).reverse = text := by
  have hafter' : ∀ c ∈ after.reverse, q c := fun c hc => hafter c (List.mem_reverse.mp hc)
  have hlast' : ∀ c ∈ text.reverse.head?, q c = false := by rwa [List.head?_reverse]
  rw [dropWhile_append_of_head hbefore hhead, List.reverse_append,
    dropWhile_append_of_head hafter' hlast', List.reverse_reverse]

namespace Text

theorem trim_of_blank {text : List Char} (htext : ∀ c ∈ text, isBlank c) : trim text = [] := by
  rw [trim, trimStart, List.dropWhile_eq_nil_iff.mpr htext]
  rfl

theorem trim_append {before text after : List Char} (hbefore : ∀ c ∈ before, isBlank c)
    (hafter : ∀ c ∈ after, isBlank c) (hhead : ∀ c ∈ text.head?, isBlank c = false)
    (hlast : ∀ c ∈ text.getLast?, isBlank c = false) : trim (before ++ (text ++ after)) = text := by
  cases text with
  | nil =>
      refine trim_of_blank fun c hc => ?_
      rcases List.mem_append.mp hc with h | h
      · exact hbefore c h
      · exact hafter c h
  | cons c text => exact strip_append hbefore hafter hhead hlast

/-- A text without blanks is not changed. -/
theorem trim_of_not_blank {text : List Char} (htext : ∀ c ∈ text, isBlank c = false) :
    trim text = text := by
  have htrim : trim ([] ++ (text ++ [])) = text := by
    refine trim_append (by simp) (by simp) ?_ ?_
    · exact fun c hc => htext c (List.mem_of_mem_head? hc)
    · exact fun c hc => htext c (List.mem_of_getLast? hc)
  simpa using htrim

theorem isBlank_of_spaces {spaces : List Char} (hspaces : Spaces spaces) :
    ∀ c ∈ spaces, isBlank c :=
  fun c hc => isBlank_of_isSpace (hspaces c hc)

end Text

/-! ## What a number is made of -/

/-- Letters, digits, signs and points. -/
def isNumberPart (c : Char) : Bool :=
  c.isAlphanum || c == '+' || c == '-' || c == '.'

private theorem ne_of_isNumberPart {c d : Char} (hc : isNumberPart c)
    (hd : isNumberPart d = false) : c ≠ d := by
  rintro rfl
  rw [hc] at hd
  cases hd

private theorem toNat_of_isNumberPart {c : Char} (hc : isNumberPart c) :
    c.toNat = 43 ∨ c.toNat = 45 ∨ c.toNat = 46 ∨ 48 ≤ c.toNat ∧ c.toNat ≤ 122 := by
  simp only [isNumberPart, Char.isAlphanum, Char.isAlpha, Char.isUpper, Char.isLower, Char.isDigit,
    Bool.or_eq_true, Bool.and_eq_true, decide_eq_true_eq, UInt32.le_iff_toNat_le, beq_iff_eq,
    ge_iff_le] at hc
  rcases hc with ((halphanum | rfl) | rfl) | rfl
  · have hvalues : 'A'.val.toNat = 65 ∧ 'Z'.val.toNat = 90 ∧ 'a'.val.toNat = 97 ∧
        'z'.val.toNat = 122 ∧ '0'.val.toNat = 48 ∧ '9'.val.toNat = 57 := by decide
    have hval : c.toNat = c.val.toNat := rfl
    omega
  · decide
  · decide
  · decide

theorem isBlank_of_isNumberPart {c : Char} (hc : isNumberPart c) : Text.isBlank c = false := by
  have hvalue := toNat_of_isNumberPart hc
  simp only [Text.isBlank, Bool.or_eq_false_iff, Bool.and_eq_false_iff, decide_eq_false_iff_not,
    beq_eq_false_iff_ne]
  omega

private theorem isNumberPart_of_isDigit {c : Char} (hc : c.isDigit) : isNumberPart c := by
  simp [isNumberPart, Char.isAlphanum, hc]

theorem isNumberPart_of_digits {digits : List Char} (hdigits : Digits digits) :
    ∀ c ∈ digits, isNumberPart c :=
  fun c hc => isNumberPart_of_isDigit (hdigits c hc)

theorem isNumberPart_of_sign {sign : List Char} {negative : Bool} (hsign : Sign sign negative) :
    ∀ c ∈ sign, isNumberPart c := by
  cases hsign <;> simp [isNumberPart]

private theorem isNumberPart_of_unsigned {text : List Char} {significand : Nat} {exponent : ℤ}
    (htext : Unsigned text significand exponent) : ∀ c ∈ text, isNumberPart c := by
  obtain @⟨mantissa, power, whole, fraction, exponent, hmantissa, hpower⟩ := htext
  have hpoint : isNumberPart '.' := by decide
  have hfront : ∀ c ∈ mantissa, isNumberPart c := by
    cases hmantissa with
    | whole hne hwhole => exact isNumberPart_of_digits hwhole
    | pointed hne hwhole hfraction =>
        simp only [List.mem_append, List.mem_cons]
        rintro c (hc | rfl | hc)
        · exact isNumberPart_of_digits hwhole c hc
        · exact hpoint
        · exact isNumberPart_of_digits hfraction c hc
    | fraction hne hfraction =>
        simp only [List.mem_cons]
        rintro c (rfl | hc)
        · exact hpoint
        · exact isNumberPart_of_digits hfraction c hc
  have hback : ∀ c ∈ power, isNumberPart c := by
    cases hpower with
    | absent => simp
    | present hletter hsign hne hdigits =>
        simp only [List.mem_append, List.mem_cons]
        rintro c (rfl | hc | hc)
        · rcases hletter with rfl | rfl <;> decide
        · exact isNumberPart_of_sign hsign c hc
        · exact isNumberPart_of_digits hdigits c hc
  intro c hc
  rcases List.mem_append.mp hc with h | h
  · exact hfront c h
  · exact hback c h

theorem isNumberPart_of_numberText {text : List Char} {x : Float} (htext : NumberText text x) :
    ∀ c ∈ text, isNumberPart c := by
  obtain ⟨n, hspells, -⟩ := htext
  have hwords : keywords.all (List.all · isNumberPart) = true := by decide
  have hkeyword : ∀ word ∈ keywords, ∀ c ∈ word, isNumberPart c :=
    fun word hword => List.all_eq_true.mp (List.all_eq_true.mp hwords word hword)
  intro c hc
  cases hspells with
  | nan hsign =>
      rcases List.mem_append.mp hc with h | h
      · exact isNumberPart_of_sign hsign c h
      · exact hkeyword _ (by decide) c h
  | infinite hsign hword =>
      rcases List.mem_append.mp hc with h | h
      · exact isNumberPart_of_sign hsign c h
      · refine hkeyword _ ?_ c h
        rcases hword with rfl | rfl <;> decide
  | decimal hsign hdecimal =>
      rcases List.mem_append.mp hc with h | h
      · exact isNumberPart_of_sign hsign c h
      · exact isNumberPart_of_unsigned hdecimal c h

theorem ne_nil_of_numberText {text : List Char} {x : Float} (htext : NumberText text x) :
    text ≠ [] := by
  obtain ⟨n, hspells, -⟩ := htext
  exact (Token.HasText.numeral hspells).ne_nil

/-! ## Numbers -/

namespace Binding

theorem number_of_numberText {before text after : List Char} {x : Float} (hbefore : Spaces before)
    (htext : NumberText text x) (hafter : Spaces after) :
    number (before ++ (text ++ after)) = .ok x := by
  have hparts := isNumberPart_of_numberText htext
  have htrim : Text.trim (before ++ (text ++ after)) = text := by
    refine Text.trim_append (Text.isBlank_of_spaces hbefore) (Text.isBlank_of_spaces hafter) ?_ ?_
    · exact fun c hc => isBlank_of_isNumberPart (hparts c (List.mem_of_mem_head? hc))
    · exact fun c hc => isBlank_of_isNumberPart (hparts c (List.mem_of_getLast? hc))
  obtain ⟨n, hspells, hx⟩ := htext
  rw [number, htrim, Numeral.ofChars?_of_spells hspells]
  simp only [Numeral.rounds_iff.mp hx]

theorem no_comma_of_piece {before text after : List Char} {x : Float} (hbefore : Spaces before)
    (htext : NumberText text x) (hafter : Spaces after) :
    ∀ c ∈ before ++ (text ++ after), (c == ',') = false := by
  have hspace : ∀ {c}, Text.isSpace c → (c == ',') = false := by
    intro c hc
    rw [beq_eq_false_iff_ne]
    rintro rfl
    exact absurd hc (by decide)
  intro c hc
  rcases List.mem_append.mp hc with h | h
  · exact hspace (hbefore c h)
  · rcases List.mem_append.mp h with h | h
    · exact beq_eq_false_iff_ne.mpr
        (ne_of_isNumberPart (isNumberPart_of_numberText htext c h) (by decide))
    · exact hspace (hafter c h)

/-- Cutting at the commas undoes the list. -/
theorem numbers_of_more {before text rest after : List Char} {x : Float} {values : List Float}
    (hbefore : Spaces before) (htext : NumberText text x) (hrest : MoreText NumberText rest values)
    (hafter : Spaces after) :
    numbers ((before ++ (text ++ (rest ++ after))).splitOn ',') = .ok (x :: values) := by
  induction hrest generalizing before text x with
  | nil =>
      have hpiece := no_comma_of_piece hbefore htext hafter
      rw [List.nil_append, List.splitOn, List.splitOnP_eq_singleton hpiece, numbers,
        number_of_numberText hbefore htext hafter]
      rfl
  | @cons spaces spaces' text' rest value values hspaces hspaces' htext' hrest ih =>
      have hpiece := no_comma_of_piece hbefore htext hspaces
      have hcut : before ++ (text ++ ((spaces ++ ',' :: (spaces' ++ (text' ++ rest))) ++ after)) =
          (before ++ (text ++ spaces)) ++ ',' :: (spaces' ++ (text' ++ (rest ++ after))) := by
        simp only [List.append_assoc, List.cons_append]
      have hmore := ih hspaces' htext'
      rw [List.splitOn] at hmore
      rw [hcut, List.splitOn, List.splitOnP_append_cons_of_forall_mem hpiece _ rfl, numbers,
        number_of_numberText hbefore htext hspaces]
      simp only [hmore]

/-! ## Vectors -/

/-- Between the brackets of a vector stand spaces alone, or a list of numbers with spaces around
it. -/
theorem inside_cases {inside : List Char} {values : List Float}
    (htext : VectorText ('[' :: (inside ++ [']'])) values) :
    (Spaces inside ∧ values = []) ∨ ∃ before text after, inside = before ++ (text ++ after) ∧
      Spaces before ∧ ListText NumberText text values ∧ Spaces after := by
  generalize hwhole : '[' :: (inside ++ [']']) = whole at htext
  cases htext with
  | empty hspaces =>
      rw [List.cons_inj_right, List.append_cancel_right_eq] at hwhole
      exact .inl ⟨hwhole ▸ hspaces, rfl⟩
  | items hbefore hitems hafter =>
      rw [List.cons_inj_right, ← List.append_assoc, ← List.append_assoc,
        List.append_cancel_right_eq, List.append_assoc] at hwhole
      exact .inr ⟨_, _, _, hwhole, hbefore, hitems, hafter⟩

/-- What a list of numbers is made of. -/
def isListPart (c : Char) : Bool :=
  isNumberPart c || Text.isSpace c || c == ','

theorem isListPart_of_spaces {spaces : List Char} (hspaces : Spaces spaces) :
    ∀ c ∈ spaces, isListPart c := by
  intro c hc
  simp [isListPart, hspaces c hc]

theorem isListPart_of_numberText {text : List Char} {x : Float} (htext : NumberText text x) :
    ∀ c ∈ text, isListPart c := by
  intro c hc
  simp [isListPart, isNumberPart_of_numberText htext c hc]

private theorem isListPart_of_moreText {text : List Char} {values : List Float}
    (htext : MoreText NumberText text values) : ∀ c ∈ text, isListPart c := by
  induction htext with
  | nil => simp
  | cons hbefore hafter hitem hrest ih =>
      simp only [List.mem_append, List.mem_cons]
      rintro c (h | rfl | h | h | h)
      · exact isListPart_of_spaces hbefore c h
      · decide
      · exact isListPart_of_spaces hafter c h
      · exact isListPart_of_numberText hitem c h
      · exact ih c h

private theorem isListPart_of_inside {inside : List Char} {values : List Float}
    (htext : VectorText ('[' :: (inside ++ [']'])) values) : ∀ c ∈ inside, isListPart c := by
  rcases inside_cases htext with ⟨hspaces, -⟩ | ⟨before, text, after, rfl, hbefore, hitems, hafter⟩
  · exact isListPart_of_spaces hspaces
  · cases hitems with
    | cons hitem hrest =>
        simp only [List.mem_append]
        rintro c (h | (h | h) | h)
        · exact isListPart_of_spaces hbefore c h
        · exact isListPart_of_numberText hitem c h
        · exact isListPart_of_moreText hrest c h
        · exact isListPart_of_spaces hafter c h

private theorem isNumberPart_of_getLast {text rest : List Char} {x : Float} {values : List Float}
    (htext : NumberText text x) (hrest : MoreText NumberText rest values) :
    ∀ c ∈ (text ++ rest).getLast?, isNumberPart c := by
  induction hrest generalizing text x with
  | nil =>
      intro c hc
      rw [List.append_nil] at hc
      exact isNumberPart_of_numberText htext c (List.mem_of_getLast? hc)
  | @cons before after text' rest value values hbefore hafter hitem hrest ih =>
      have hcut : text ++ (before ++ ',' :: (after ++ (text' ++ rest))) =
          (text ++ (before ++ ',' :: after)) ++ (text' ++ rest) := by
        simp only [List.append_assoc, List.cons_append]
      have hne : text' ++ rest ≠ [] := List.append_ne_nil_of_left_ne_nil
        (ne_nil_of_numberText hitem) rest
      rw [hcut, List.getLast?_append_of_ne_nil _ hne]
      exact ih hitem

/-- A list of numbers starts and ends with a number, so trimming frees it of spaces. -/
theorem trim_list {before text after : List Char} {values : List Float} (hbefore : Spaces before)
    (htext : ListText NumberText text values) (hafter : Spaces after) :
    Text.trim (before ++ (text ++ after)) = text := by
  cases htext with
  | @cons first rest value values hitem hrest =>
      have hhead : ∀ c ∈ (first ++ rest).head?, isNumberPart c :=
        head_append_of_ne_nil (ne_nil_of_numberText hitem) (isNumberPart_of_numberText hitem)
      have hlast := isNumberPart_of_getLast hitem hrest
      exact Text.trim_append (Text.isBlank_of_spaces hbefore) (Text.isBlank_of_spaces hafter)
        (fun c hc => isBlank_of_isNumberPart (hhead c hc))
        (fun c hc => isBlank_of_isNumberPart (hlast c hc))

private theorem stripBrackets_append {before inside after : List Char} {values : List Float}
    (hbefore : ∀ c ∈ before, c == '[') (hafter : ∀ c ∈ after, c == ']')
    (hinside : VectorText ('[' :: (inside ++ [']'])) values) :
    stripBrackets (before ++ (inside ++ after)) = inside := by
  have hparts := isListPart_of_inside hinside
  refine strip_append hbefore hafter ?_ ?_
  · intro c hc
    rw [beq_eq_false_iff_ne]
    rintro rfl
    rcases List.mem_append.mp (List.mem_of_mem_head? hc) with h | h
    · exact absurd (hparts _ h) (by decide)
    · exact absurd (hafter _ h) (by decide)
  · intro c hc
    rw [beq_eq_false_iff_ne]
    rintro rfl
    exact absurd (hparts _ (List.mem_of_getLast? hc)) (by decide)

/-- The elements of a vector, whether its brackets are there or not. -/
theorem elements_of_inside {before inside after : List Char} {values : List Float}
    (hbefore : ∀ c ∈ before, c == '[') (hafter : ∀ c ∈ after, c == ']')
    (hinside : VectorText ('[' :: (inside ++ [']'])) values) :
    elements (before ++ (inside ++ after)) = .ok values := by
  rw [elements, stripBrackets_append hbefore hafter hinside]
  rcases inside_cases hinside with ⟨hspaces, rfl⟩ | ⟨start, text, stop, rfl, hstart, htext, hstop⟩
  · simp only [Text.trim_of_blank (Text.isBlank_of_spaces hspaces), if_true]
  · simp only [trim_list hstart htext hstop]
    cases htext with
    | cons hitem hrest =>
        have hne := List.append_ne_nil_of_left_ne_nil (ne_nil_of_numberText hitem)
        rw [if_neg (hne _), List.append_assoc]
        exact numbers_of_more hstart hitem hrest hstop

/-- Without the spaces around it, what stands between the brackets means the same. -/
theorem vectorText_trim {inside : List Char} {values : List Float}
    (hinside : VectorText ('[' :: (inside ++ [']'])) values) :
    VectorText ('[' :: (Text.trim inside ++ [']'])) values := by
  rcases inside_cases hinside with ⟨hspaces, rfl⟩ | ⟨start, text, stop, rfl, hstart, htext, hstop⟩
  · rw [Text.trim_of_blank (Text.isBlank_of_spaces hspaces)]
    exact .empty spaces_nil
  · rw [trim_list hstart htext hstop]
    exact .items spaces_nil htext spaces_nil

/-! ## Whole bindings -/

private theorem isBlank_of_isWordPart {c : Char} (hc : isWordPart c) : Text.isBlank c = false := by
  rcases Bool.or_eq_true_iff.mp hc with halphanum | hunderscore
  · exact isBlank_of_isNumberPart (by simp [isNumberPart, halphanum])
  · rw [beq_iff_eq.mp hunderscore]
    decide

/-- A binding is cut behind its name, which a word cannot be mistaken about. -/
theorem split_binding {name value : String} (hname : IsWord name.toList) :
    split (name ++ "=" ++ value) = .ok (name, Text.trim value.toList) := by
  have hparts := hname.isWordPart
  have hequals : ∀ c ∈ name.toList, (c != '=') = true := by
    intro c hc
    rw [bne_iff_ne]
    rintro rfl
    exact absurd (hparts _ hc) (by decide)
  have htext : (name ++ "=" ++ value).toList = name.toList ++ '=' :: value.toList := by simp
  have hdrop : (name.toList ++ '=' :: value.toList).dropWhile (· != '=') = '=' :: value.toList :=
    dropWhile_append_of_head hequals (by simp)
  have htake : (name.toList ++ '=' :: value.toList).takeWhile (· != '=') = name.toList :=
    takeWhile_append_of_head hequals (by simp)
  have htrim : Text.trim name.toList = name.toList :=
    Text.trim_of_not_blank fun c hc => isBlank_of_isWordPart (hparts c hc)
  have hne : name.toList ≠ [] := by
    rintro hnil
    rw [hnil] at hname
    exact hname
  rw [split, htext]
  simp only [hdrop, htake, htrim, if_neg hne, String.ofList_toList]

variable {name value : String}

theorem readScalar_of_numberText {x : Float} (hname : IsWord name.toList)
    (htext : NumberText value.toList x) : readScalar (name ++ "=" ++ value) = .ok ⟨name, x⟩ := by
  have hparts := isNumberPart_of_numberText htext
  have htrim : Text.trim value.toList = value.toList :=
    Text.trim_of_not_blank fun c hc => isBlank_of_isNumberPart (hparts c hc)
  have hnumber := number_of_numberText spaces_nil htext spaces_nil
  rw [List.nil_append, List.append_nil] at hnumber
  rw [readScalar, split_binding hname]
  simp only [htrim, hnumber]

theorem readVector_of_inside {values : List Float} (hname : IsWord name.toList)
    (htext : VectorText ('[' :: (value.toList ++ [']'])) values) :
    readVector (name ++ "=" ++ value) = .ok ⟨name, values⟩ := by
  have helements : elements ([] ++ (Text.trim value.toList ++ [])) = .ok values :=
    elements_of_inside (by simp) (by simp) (vectorText_trim htext)
  rw [List.nil_append, List.append_nil] at helements
  rw [readVector, split_binding hname]
  simp only [helements]

theorem exists_inside {text : List Char} {values : List Float} (htext : VectorText text values) :
    ∃ inside, text = '[' :: (inside ++ [']']) := by
  cases htext with
  | @empty spaces hspaces => exact ⟨spaces, rfl⟩
  | @items before text after _ hbefore hitems hafter =>
      exact ⟨before ++ (text ++ after), by simp only [List.append_assoc]⟩

theorem readVector_of_vectorText {values : List Float} (hname : IsWord name.toList)
    (htext : VectorText value.toList values) :
    readVector (name ++ "=" ++ value) = .ok ⟨name, values⟩ := by
  rw [readVector, split_binding hname]
  obtain ⟨inside, hinside⟩ := exists_inside htext
  rw [hinside] at htext ⊢
  have htrim : Text.trim ([] ++ ('[' :: (inside ++ [']']) ++ [])) = '[' :: (inside ++ [']']) := by
    refine Text.trim_append (by simp) (by simp) ?_ ?_
    · rintro c ⟨⟩
      decide
    · intro c hc
      rw [← List.cons_append, List.getLast?_concat] at hc
      cases hc
      decide
  rw [List.nil_append, List.append_nil] at htrim
  have helements : elements (['['] ++ (inside ++ [']'])) = .ok values :=
    elements_of_inside (by simp) (by simp) htext
  rw [List.singleton_append] at helements
  simp only [htrim, helements]

end Binding

end PNorm
