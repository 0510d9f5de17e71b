import PNorm.Proofs.Console.Bindings

/-!
# The notation of bindings

Which texts are bindings, what they bind, and what is said of all others.  `Reads`
states it without a reader, by cutting the text where it has to be cut: at the first
equals sign, at the brackets around a list and at every comma of the list.  Around each
part there may be blanks, which belong to no part (`Trims`).

A number is written as it is on its own (`SpellsAlone`), where the words for infinity and
NaN may be in upper and lower case.  This is wider than a number of the call grammar.

The readers follow the notation (`bindings_read_as_written`): they accept every text
of it and no other, and of a text with several defects they report the leftmost.

Two facts about cutting do most of the work, and neither is about numbers.  A text is
what is taken off at its ends and what is left between, for blanks and for brackets alike
(`exists_strip`), and a text that is cut at the first equals sign is put together again
by it (`split_of_cut`).  The reader and the notation cut at the same places, so what
remains is to compare how one piece is read (`numberReads_iff`).

Blanks are those of Unicode here.  This is another place where bindings are wider than
calls, which know four spaces.
-/

namespace PNorm

open Grammar

namespace Notation

/-! ## Parts and what is around them -/

/-- Nothing but blanks. -/
def Blanks (text : List Char) : Prop :=
  ∀ c ∈ text, Text.isBlank c

/-- The second text is the first without the blanks at its two ends. -/
inductive Trims : List Char → List Char → Prop
  | mk {before core after : List Char} (hbefore : Blanks before) (hafter : Blanks after)
      (hhead : ∀ c ∈ core.head?, Text.isBlank c = false)
      (hlast : ∀ c ∈ core.getLast?, Text.isBlank c = false) :
      Trims (before ++ (core ++ after)) core

/-- No bracket is left at the ends of a list. -/
def Bare (list : List Char) : Prop :=
  (∀ c ∈ list.head?, c ≠ '[') ∧ ∀ c ∈ list.getLast?, c ≠ ']'

/-- A list with any number of opening brackets before it and of closing brackets behind it. -/
def bracketed (opening : Nat) (list : List Char) (closing : Nat) : List Char :=
  List.replicate opening '[' ++ (list ++ List.replicate closing ']')

/-! ## Numbers -/

/-- A number that stands alone: an optional sign, and then a decimal or a word in any case. -/
inductive SpellsAlone : List Char → Numeral → Prop
  | nan {sign word : List Char} {negative : Bool} (hsign : Sign sign negative)
      (hword : word.map Char.toLower = "nan".toList) : SpellsAlone (sign ++ word) .nan
  | infinite {sign word : List Char} {negative : Bool} (hsign : Sign sign negative)
      (hword : word.map Char.toLower = "inf".toList ∨ word.map Char.toLower = "infinity".toList) :
      SpellsAlone (sign ++ word) (.infinite negative)
  | decimal {sign text : List Char} {negative : Bool} {significand : Nat} {exponent : ℤ}
      (hsign : Sign sign negative) (hdecimal : Unsigned text significand exponent) :
      SpellsAlone (sign ++ text) (.decimal negative significand exponent)

/-- A number and the double nearest to it. -/
def IsNumber (text : List Char) (x : Float) : Prop :=
  ∃ n, SpellsAlone text n ∧ n.Rounds x

/-- What is said of a text that is no number. -/
def noNumberMessage (text : List Char) : String :=
  "invalid number '" ++ String.ofList text ++ "': " ++
    (if text = [] then "cannot parse float from empty string" else "invalid float literal")

/-- How a number with blanks around it is read. -/
inductive NumberReads (text : List Char) : Except String Float → Prop
  | number {core : List Char} {x : Float} (hcore : Trims text core) (hnumber : IsNumber core x) :
      NumberReads text (.ok x)
  | noNumber {core : List Char} (hcore : Trims text core) (hnumber : ∀ x, ¬ IsNumber core x) :
      NumberReads text (.error (noNumberMessage core))

/-- How a list of numbers is read, in brackets or without. -/
inductive ListReads : List Char → Except String (List Float) → Prop
  | blank {opening closing : Nat} {list : List Char} (hbare : Bare list) (hblank : Blanks list) :
      ListReads (bracketed opening list closing) (.ok [])
  | numbers {opening closing : Nat} {list : List Char} {values : List Float} (hbare : Bare list)
      (hblank : ¬ Blanks list)
      (hpieces : List.Forall₂ (fun piece x => NumberReads piece (.ok x)) (list.splitOn ',')
        values) :
      ListReads (bracketed opening list closing) (.ok values)
  | noNumber {opening closing : Nat} {list piece : List Char} {before after : List (List Char)}
      {message : String} (hbare : Bare list) (hblank : ¬ Blanks list)
      (hpieces : list.splitOn ',' = before ++ piece :: after)
      (hbefore : ∀ piece ∈ before, ∃ x, NumberReads piece (.ok x))
      (hpiece : NumberReads piece (.error message)) :
      ListReads (bracketed opening list closing) (.error message)

/-! ## Bindings -/

/-- How a binding is read, if `Value` says how its value is. -/
inductive Reads {β γ : Type} (Value : List Char → Except String β → Prop) (bind : String → β → γ)
    (text : String) : Except String γ → Prop
  | noEquals (htext : '=' ∉ text.toList) :
      Reads Value bind text (.error ("expected NAME=VALUE, got '" ++ text ++ "'"))
  | noName {front back : List Char} (htext : text.toList = front ++ '=' :: back)
      (hfront : '=' ∉ front) (hname : Blanks front) :
      Reads Value bind text (.error ("missing name in '" ++ text ++ "'"))
  | value {front back name value : List Char} {result : Except String β}
      (htext : text.toList = front ++ '=' :: back) (hfront : '=' ∉ front)
      (hname : Trims front name) (hne : name ≠ []) (hvalue : Trims back value)
      (hresult : Value value result) :
      Reads Value bind text (result.map (bind (String.ofList name)))

/-- Two texts for one binding, which differ in the blanks around the name, the equals sign and the
value, and inside the value as far as `Value` says. -/
inductive Respaced (Value : List Char → List Char → Prop) (text text' : String) : Prop
  | mk {front back front' back' name value value' : List Char}
      (htext : text.toList = front ++ '=' :: back) (hfront : '=' ∉ front)
      (htext' : text'.toList = front' ++ '=' :: back') (hfront' : '=' ∉ front')
      (hname : Trims front name) (hname' : Trims front' name) (hne : name ≠ [])
      (hvalue : Trims back value) (hvalue' : Trims back' value') (hsame : Value value value')

/-- Two texts for one list in the same brackets, which differ in the blanks around the commas and
between the list and the innermost brackets. -/
inductive RespacedList : List Char → List Char → Prop
  | mk {opening closing : Nat} {list list' : List Char} (hbare : Bare list) (hbare' : Bare list')
      (hpieces : List.Forall₂ (fun piece piece' => ∃ core, Trims piece core ∧ Trims piece' core)
        (list.splitOn ',') (list'.splitOn ',')) :
      RespacedList (bracketed opening list closing) (bracketed opening list' closing)

/-! ## Stripping -/

/-- What is left when both ends are stripped. -/
theorem exists_strip (p q : Char → Bool) (text : List Char) : ∃ before core after,
    text = before ++ (core ++ after) ∧
      ((text.dropWhile p).reverse.dropWhile q).reverse = core ∧
      (∀ c ∈ before, p c) ∧ (∀ c ∈ after, q c) ∧
      (∀ c ∈ (core ++ after).head?, p c = false) ∧ ∀ c ∈ core.getLast?, q c = false := by
  set rest := text.dropWhile p with hrest
  have hsplit :
      rest = (rest.reverse.dropWhile q).reverse ++ (rest.reverse.takeWhile q).reverse := by
    rw [← List.reverse_append, List.takeWhile_append_dropWhile, List.reverse_reverse]
  refine ⟨text.takeWhile p, (rest.reverse.dropWhile q).reverse, (rest.reverse.takeWhile q).reverse,
    ?_, rfl, ?_, ?_, ?_, ?_⟩
  · rw [← hsplit, hrest, List.takeWhile_append_dropWhile]
  · exact fun c hc => List.mem_takeWhile_imp hc
  · exact fun c hc => List.mem_takeWhile_imp (List.mem_reverse.mp hc)
  · rw [← hsplit, hrest]
    intro c hc
    have hhead := List.head?_dropWhile_not p text
    rw [Option.mem_def.mp hc] at hhead
    simpa using hhead
  · rw [List.getLast?_reverse]
    intro c hc
    have hhead := List.head?_dropWhile_not q rest.reverse
    rw [Option.mem_def.mp hc] at hhead
    simpa using hhead

theorem trims_iff {text core : List Char} : Trims text core ↔ Text.trim text = core := by
  constructor
  · rintro ⟨hbefore, hafter, hhead, hlast⟩
    exact Text.trim_append hbefore hafter hhead hlast
  · intro htrim
    obtain ⟨before, core', after, htext, hcore, hbefore, hafter, hhead, hlast⟩ :=
      exists_strip Text.isBlank Text.isBlank text
    obtain rfl : core' = core := hcore.symm.trans htrim
    rw [htext]
    refine .mk hbefore hafter ?_ hlast
    intro c hc
    exact hhead c (List.mem_head?_append_of_mem_head? hc)

theorem trim_eq_nil_iff {text : List Char} : Text.trim text = [] ↔ Blanks text := by
  constructor
  · intro htrim
    obtain ⟨hbefore, hafter, -, -⟩ := trims_iff.mpr htrim
    rintro c hc
    rcases List.mem_append.mp hc with h | h
    · exact hbefore c h
    · exact hafter c h
  · exact Text.trim_of_blank

private theorem stripBrackets_bracketed {opening closing : Nat} {list : List Char}
    (hbare : Bare list) : Binding.stripBrackets (bracketed opening list closing) = list := by
  refine strip_append (by simp) (by simp) ?_ ?_
  · intro c hc
    rw [beq_eq_false_iff_ne]
    cases list with
    | nil =>
        rw [List.nil_append] at hc
        rw [List.eq_of_mem_replicate (List.mem_of_mem_head? hc)]
        decide
    | cons d list => exact hbare.1 c hc
  · intro c hc
    rw [beq_eq_false_iff_ne]
    exact hbare.2 c hc

theorem exists_bracketed (value : List Char) : ∃ opening closing,
    value = bracketed opening (Binding.stripBrackets value) closing ∧
      Bare (Binding.stripBrackets value) := by
  obtain ⟨before, core, after, hvalue, hcore, hbefore, hafter, hhead, hlast⟩ :=
    exists_strip (· == '[') (· == ']') value
  have hopening : before = List.replicate before.length '[' :=
    List.eq_replicate_iff.mpr ⟨rfl, fun c hc => beq_iff_eq.mp (hbefore c hc)⟩
  have hclosing : after = List.replicate after.length ']' :=
    List.eq_replicate_iff.mpr ⟨rfl, fun c hc => beq_iff_eq.mp (hafter c hc)⟩
  rw [show Binding.stripBrackets value = core from hcore]
  refine ⟨before.length, after.length, ?_, ?_, ?_⟩
  · rw [bracketed, ← hopening, ← hclosing]
    exact hvalue
  · intro c hc
    exact beq_eq_false_iff_ne.mp (hhead c (List.mem_head?_append_of_mem_head? hc))
  · intro c hc
    exact beq_eq_false_iff_ne.mp (hlast c hc)

/-! ## Numbers -/

private theorem not_sign_of_toLower {c d : Char} (hc : c.toLower = d) (hd : d ≠ '-' ∧ d ≠ '+') :
    c ≠ '-' ∧ c ≠ '+' := by
  constructor
  · rintro rfl
    exact hd.1 hc.symm
  · rintro rfl
    exact hd.2 hc.symm

/-- The sign in front of a word is found, since no word starts with one. -/
theorem scanSign_word {sign word : List Char} {negative : Bool} (hsign : Sign sign negative)
    {c : Char} {lower : List Char} (hword : word.map Char.toLower = c :: lower)
    (hc : c ≠ '-' ∧ c ≠ '+') : Numeral.scanSign (sign ++ word) = (negative, sign.length) := by
  refine Numeral.scanSign_append hsign ?_
  obtain ⟨d, rest, rfl, hd, -⟩ := List.map_eq_cons_iff.mp hword
  rintro c ⟨⟩
  exact not_sign_of_toLower hd hc

theorem ofList_eq_iff {text : List Char} {word : String} :
    String.ofList text = word ↔ text = word.toList := by
  rw [← String.toList_inj, String.toList_ofList]

private theorem ofChars?_of_spellsAlone {text : List Char} {n : Numeral}
    (htext : SpellsAlone text n) : Numeral.ofChars? text = some n := by
  cases htext with
  | nan hsign hword =>
      have hscan := scanSign_word hsign hword (by decide)
      simp only [Numeral.ofChars?, hscan, List.drop_left, ofList_eq_iff, hword]
      rw [if_neg (by decide), if_pos trivial]
  | infinite hsign hword =>
      rcases hword with hword | hword <;>
        · have hscan := scanSign_word hsign hword (by decide)
          simp only [Numeral.ofChars?, hscan, List.drop_left, ofList_eq_iff, hword]
          rw [if_pos (by decide)]
  | decimal hsign hdecimal => exact Numeral.ofChars?_of_spells (.decimal hsign hdecimal)

private theorem spellsAlone_of_ofChars? {text : List Char} {n : Numeral}
    (htext : Numeral.ofChars? text = some n) : SpellsAlone text n := by
  have hsign := Numeral.scanSign_sound text
  rw [← List.take_append_drop (Numeral.scanSign text).2 text]
  revert htext
  fun_cases Numeral.ofChars? text with
  | case1 negative size hscanned unsigned word hword =>
      rintro ⟨⟩
      rw [hscanned] at hsign ⊢
      exact .infinite hsign (hword.imp ofList_eq_iff.mp ofList_eq_iff.mp)
  | case2 negative size hscanned unsigned word hinfinite hword =>
      rintro ⟨⟩
      rw [hscanned] at hsign ⊢
      exact .nan hsign (ofList_eq_iff.mp hword)
  | case3 negative size hscanned unsigned word hinfinite hnan scanned hscan hsize =>
      rintro ⟨⟩
      rw [hscanned] at hsign ⊢
      have hdecimal := Numeral.scanDecimal_sound hscan
      rw [hsize, List.take_length] at hdecimal
      exact .decimal hsign hdecimal
  | case4 | case5 => nofun

theorem ofChars?_eq_some_iff {text : List Char} {n : Numeral} :
    Numeral.ofChars? text = some n ↔ SpellsAlone text n :=
  ⟨spellsAlone_of_ofChars?, ofChars?_of_spellsAlone⟩

theorem isNumber_iff {text : List Char} {x : Float} :
    IsNumber text x ↔ (Numeral.ofChars? text).map Numeral.toFloat = some x := by
  simp only [IsNumber, ← ofChars?_eq_some_iff, Numeral.rounds_iff, Option.map_eq_some_iff,
    eq_comm (a := x)]

/-- What is shown of a result: the value, or the message of the error. -/
def shown {β : Type} (result : Except BindingError β) : Except String β :=
  result.mapError BindingError.message

theorem shown_eq_ok_iff {β : Type} {result : Except BindingError β} {value : β} :
    shown result = .ok value ↔ result = .ok value := by
  cases result <;> simp [shown, Except.mapError]

theorem shown_eq_error_iff {β : Type} {result : Except BindingError β} {message : String} :
    shown result = .error message ↔ ∃ error, result = .error error ∧ error.message = message := by
  cases result <;> simp [shown, Except.mapError]

theorem number_of_isNumber {text core : List Char} {x : Float} (hcore : Trims text core)
    (hnumber : IsNumber core x) : Binding.number text = .ok x := by
  obtain ⟨n, hn, rfl⟩ := Option.map_eq_some_iff.mp (isNumber_iff.mp hnumber)
  rw [Binding.number, trims_iff.mp hcore]
  simp only [hn]

theorem message_noNumber (text : List Char) :
    (BindingError.noNumber (String.ofList text)).message = noNumberMessage text := by
  have hempty : (String.ofList text).isEmpty = true ↔ text = [] := by
    rw [String.isEmpty_iff, String.ofList_eq_empty_iff]
  unfold BindingError.message noNumberMessage
  simp only []
  by_cases htext : text = []
  · rw [if_pos (hempty.mpr htext), if_pos htext]
    rfl
  · rw [if_neg (hempty.not.mpr htext), if_neg htext]
    rfl

theorem number_of_not_isNumber {text core : List Char} (hcore : Trims text core)
    (hnumber : ∀ x, ¬ IsNumber core x) :
    Binding.number text = .error (.noNumber (String.ofList core)) := by
  have hnone : Numeral.ofChars? core = none := by
    rw [Option.eq_none_iff_forall_ne_some]
    intro n hn
    refine hnumber n.toFloat (isNumber_iff.mpr ?_)
    rw [hn, Option.map_some]
  rw [Binding.number, trims_iff.mp hcore]
  simp only [hnone]

theorem numberReads_ok_iff {text : List Char} {x : Float} :
    NumberReads text (.ok x) ↔ Binding.number text = .ok x := by
  constructor
  · intro h
    cases h with
    | number hcore hnumber => exact number_of_isNumber hcore hnumber
  · intro hread
    by_cases hnumber : ∃ y, IsNumber (Text.trim text) y
    · obtain ⟨y, hy⟩ := hnumber
      cases hread.symm.trans (number_of_isNumber (trims_iff.mpr rfl) hy)
      exact .number (trims_iff.mpr rfl) hy
    · cases hread.symm.trans (number_of_not_isNumber (trims_iff.mpr rfl) (not_exists.mp hnumber))

theorem numberReads_error_iff {text : List Char} {message : String} :
    NumberReads text (.error message) ↔
      ∃ error, Binding.number text = .error error ∧ error.message = message := by
  constructor
  · intro h
    cases h with
    | noNumber hcore hnumber =>
        exact ⟨_, number_of_not_isNumber hcore hnumber, message_noNumber _⟩
  · rintro ⟨error, hread, rfl⟩
    by_cases hnumber : ∃ y, IsNumber (Text.trim text) y
    · obtain ⟨y, hy⟩ := hnumber
      cases hread.symm.trans (number_of_isNumber (trims_iff.mpr rfl) hy)
    · have hnone := not_exists.mp hnumber
      cases hread.symm.trans (number_of_not_isNumber (trims_iff.mpr rfl) hnone)
      rw [message_noNumber]
      exact .noNumber (trims_iff.mpr rfl) hnone

theorem numberReads_iff (text : List Char) (result : Except String Float) :
    NumberReads text result ↔ shown (Binding.number text) = result := by
  cases result with
  | ok x => rw [numberReads_ok_iff, shown_eq_ok_iff]
  | error message => rw [numberReads_error_iff, shown_eq_error_iff]

/-! ## Lists -/

section Lists

variable {pieces : List (List Char)}

theorem numbers_eq_ok_iff {values : List Float} : Binding.numbers pieces = .ok values ↔
    List.Forall₂ (fun piece x => Binding.number piece = .ok x) pieces values := by
  induction pieces generalizing values with
  | nil => rw [Binding.numbers, List.forall₂_nil_left_iff, Except.ok.injEq, eq_comm]
  | cons piece pieces ih =>
      rw [List.forall₂_cons_left_iff, Binding.numbers]
      simp only [← ih]
      cases Binding.number piece with
      | error => simp
      | ok x =>
          cases Binding.numbers pieces with
          | error => simp
          | ok more => simp [eq_comm]

/-- The first piece that is no number ends the reading. -/
theorem numbers_append_error {before after : List (List Char)} {piece : List Char}
    {error : BindingError} (hbefore : ∀ piece ∈ before, ∃ x, Binding.number piece = .ok x)
    (hpiece : Binding.number piece = .error error) :
    Binding.numbers (before ++ piece :: after) = .error error := by
  induction before with
  | nil => simp only [List.nil_append, Binding.numbers, hpiece]
  | cons first before ih =>
      obtain ⟨⟨x, hx⟩, hrest⟩ := List.forall_mem_cons.mp hbefore
      simp only [List.cons_append, Binding.numbers, hx, ih hrest]

private theorem exists_of_numbers_error {error : BindingError}
    (h : Binding.numbers pieces = .error error) :
    ∃ before piece after, pieces = before ++ piece :: after ∧
      (∀ piece ∈ before, ∃ x, Binding.number piece = .ok x) ∧
      Binding.number piece = .error error := by
  induction pieces with
  | nil => cases h
  | cons first pieces ih =>
      rw [Binding.numbers] at h
      cases hfirst : Binding.number first with
      | error e =>
          rw [hfirst] at h
          cases h
          exact ⟨[], first, pieces, rfl, by simp, hfirst⟩
      | ok x =>
          simp only [hfirst] at h
          cases hmore : Binding.numbers pieces with
          | ok more => simp [hmore] at h
          | error e =>
              simp only [hmore] at h
              cases h
              obtain ⟨before, piece, after, rfl, hbefore, hpiece⟩ := ih hmore
              refine ⟨first :: before, piece, after, rfl, ?_, hpiece⟩
              exact List.forall_mem_cons.mpr ⟨⟨x, hfirst⟩, hbefore⟩

end Lists

theorem elements_bracketed {opening closing : Nat} {list : List Char} (hbare : Bare list) :
    Binding.elements (bracketed opening list closing) =
      if Text.trim list = [] then .ok [] else Binding.numbers (list.splitOn ',') := by
  simp only [Binding.elements, stripBrackets_bracketed hbare]

theorem listReads_ok_iff {value : List Char} {values : List Float} :
    ListReads value (.ok values) ↔ Binding.elements value = .ok values := by
  constructor
  · intro h
    cases h with
    | blank hbare hblank => rw [elements_bracketed hbare, if_pos (trim_eq_nil_iff.mpr hblank)]
    | numbers hbare hblank hpieces =>
        simp only [numberReads_ok_iff] at hpieces
        rw [elements_bracketed hbare, if_neg (trim_eq_nil_iff.not.mpr hblank),
          numbers_eq_ok_iff.mpr hpieces]
  · intro h
    obtain ⟨opening, closing, hvalue, hbare⟩ := exists_bracketed value
    rw [hvalue, elements_bracketed hbare] at h
    rw [hvalue]
    by_cases hblank : Text.trim (Binding.stripBrackets value) = []
    · rw [if_pos hblank] at h
      cases h
      exact .blank hbare (trim_eq_nil_iff.mp hblank)
    · rw [if_neg hblank] at h
      refine .numbers hbare (trim_eq_nil_iff.not.mp hblank) ?_
      simp only [numberReads_ok_iff]
      exact numbers_eq_ok_iff.mp h

theorem listReads_error_iff {value : List Char} {message : String} :
    ListReads value (.error message) ↔
      ∃ error, Binding.elements value = .error error ∧ error.message = message := by
  constructor
  · intro h
    cases h with
    | noNumber hbare hblank hpieces hbefore hpiece =>
        obtain ⟨error, herror, hmessage⟩ := numberReads_error_iff.mp hpiece
        simp only [numberReads_ok_iff] at hbefore
        refine ⟨error, ?_, hmessage⟩
        rw [elements_bracketed hbare, if_neg (trim_eq_nil_iff.not.mpr hblank), hpieces]
        exact numbers_append_error hbefore herror
  · rintro ⟨error, h, rfl⟩
    obtain ⟨opening, closing, hvalue, hbare⟩ := exists_bracketed value
    rw [hvalue, elements_bracketed hbare] at h
    rw [hvalue]
    by_cases hblank : Text.trim (Binding.stripBrackets value) = []
    · rw [if_pos hblank] at h
      cases h
    · rw [if_neg hblank] at h
      obtain ⟨before, piece, after, hpieces, hbefore, hpiece⟩ := exists_of_numbers_error h
      refine .noNumber hbare (trim_eq_nil_iff.not.mp hblank) hpieces ?_
        (numberReads_error_iff.mpr ⟨error, hpiece, rfl⟩)
      simpa only [numberReads_ok_iff] using hbefore

theorem listReads_iff (value : List Char) (result : Except String (List Float)) :
    ListReads value result ↔ shown (Binding.elements value) = result := by
  cases result with
  | ok values => rw [listReads_ok_iff, shown_eq_ok_iff]
  | error message => rw [listReads_error_iff, shown_eq_error_iff]

/-! ## Bindings -/

theorem split_of_cut {text : String} {front back name value : List Char}
    (htext : text.toList = front ++ '=' :: back) (hfront : '=' ∉ front) (hname : Trims front name)
    (hvalue : Trims back value) :
    Binding.split text =
      if name = [] then .error (.noName text) else .ok (String.ofList name, value) := by
  have hequals : ∀ c ∈ front, (c != '=') = true := by
    intro c hc
    rw [bne_iff_ne]
    rintro rfl
    exact hfront hc
  have hdrop : (front ++ '=' :: back).dropWhile (· != '=') = '=' :: back :=
    dropWhile_append_of_head hequals (by simp)
  have htake : (front ++ '=' :: back).takeWhile (· != '=') = front :=
    takeWhile_append_of_head hequals (by simp)
  simp only [Binding.split, htext, hdrop, htake, trims_iff.mp hname, trims_iff.mp hvalue]

theorem split_of_noEquals {text : String} (htext : '=' ∉ text.toList) :
    Binding.split text = .error (.noEquals text) := by
  have hdrop : text.toList.dropWhile (· != '=') = [] := by
    rw [List.dropWhile_eq_nil_iff]
    intro c hc
    rw [bne_iff_ne]
    rintro rfl
    exact htext hc
  simp only [Binding.split, hdrop]

/-- How the readers of bindings are put together. -/
def readWith {β γ : Type} (read : List Char → Except BindingError β) (bind : String → β → γ)
    (text : String) : Except BindingError γ :=
  match Binding.split text with
  | .error error => .error error
  | .ok (name, value) => (read value).map (bind name)

theorem readScalar_eq (text : String) :
    Binding.readScalar text = readWith Binding.number ScalarBinding.mk text := by
  rw [Binding.readScalar, readWith]
  rcases Binding.split text with error | ⟨name, value⟩
  · rfl
  · simp only
    cases Binding.number value <;> rfl

theorem readVector_eq (text : String) :
    Binding.readVector text = readWith Binding.elements VectorBinding.mk text := by
  rw [Binding.readVector, readWith]
  rcases Binding.split text with error | ⟨name, value⟩
  · rfl
  · simp only
    cases Binding.elements value <;> rfl

section Bindings

variable {β γ : Type} {Value : List Char → Except String β → Prop}
  {read : List Char → Except BindingError β} {bind : String → β → γ} {text : String}

theorem shown_map (result : Except BindingError β) (f : β → γ) :
    shown (result.map f) = (shown result).map f := by
  cases result <;> rfl

theorem trims_nil {blanks : List Char} (hblanks : Blanks blanks) : Trims blanks [] :=
  trims_iff.mpr (trim_eq_nil_iff.mpr hblanks)

private theorem shown_readWith_of_reads
    (hvalue : ∀ value result, Value value result ↔ shown (read value) = result)
    {result : Except String γ} (h : Reads Value bind text result) :
    shown (readWith read bind text) = result := by
  cases h with
  | noEquals htext =>
      rw [readWith, split_of_noEquals htext]
      rfl
  | noName htext hfront hname =>
      rw [readWith, split_of_cut htext hfront (trims_nil hname) (trims_iff.mpr rfl), if_pos rfl]
      rfl
  | value htext hfront hname hne htrim hresult =>
      rw [readWith, split_of_cut htext hfront hname htrim, if_neg hne]
      simp only
      rw [shown_map, (hvalue _ _).mp hresult]

private theorem reads_shown_readWith
    (hvalue : ∀ value result, Value value result ↔ shown (read value) = result) :
    Reads Value bind text (shown (readWith read bind text)) := by
  by_cases hequals : '=' ∈ text.toList
  · obtain ⟨front, back, htext, hfront⟩ := List.eq_append_cons_of_mem hequals
    have hname : Trims front (Text.trim front) := trims_iff.mpr rfl
    have htrim : Trims back (Text.trim back) := trims_iff.mpr rfl
    rw [readWith, split_of_cut htext hfront hname htrim]
    by_cases hne : Text.trim front = []
    · rw [if_pos hne]
      exact .noName htext hfront (trim_eq_nil_iff.mp hne)
    · rw [if_neg hne]
      simp only
      rw [shown_map]
      exact .value htext hfront hname hne htrim ((hvalue _ _).mpr rfl)
  · rw [readWith, split_of_noEquals hequals]
    exact .noEquals hequals

theorem reads_iff (hvalue : ∀ value result, Value value result ↔ shown (read value) = result)
    {result : Except String γ} :
    shown (readWith read bind text) = result ↔ Reads Value bind text result := by
  constructor
  · rintro rfl
    exact reads_shown_readWith hvalue
  · exact shown_readWith_of_reads hvalue

/-- Blanks in the places that the notation leaves free change nothing. -/
theorem readWith_of_respaced {Same : List Char → List Char → Prop} {text' : String}
    (hsame : ∀ value value', Same value value' → read value' = read value)
    (h : Respaced Same text text') : readWith read bind text' = readWith read bind text := by
  obtain ⟨htext, hfront, htext', hfront', hname, hname', hne, hvalue, hvalue', hequal⟩ := h
  rw [readWith, readWith, split_of_cut htext hfront hname hvalue,
    split_of_cut htext' hfront' hname' hvalue', if_neg hne, if_neg hne]
  simp only
  rw [hsame _ _ hequal]

end Bindings

/-! ## Blanks in a list -/

theorem number_of_trims {piece piece' core : List Char} (hpiece : Trims piece core)
    (hpiece' : Trims piece' core) : Binding.number piece' = Binding.number piece := by
  rw [Binding.number, Binding.number, trims_iff.mp hpiece, trims_iff.mp hpiece']

theorem numbers_of_respaced {pieces pieces' : List (List Char)}
    (h : List.Forall₂ (fun piece piece' => ∃ core, Trims piece core ∧ Trims piece' core)
      pieces pieces') : Binding.numbers pieces' = Binding.numbers pieces := by
  induction h with
  | nil => rfl
  | cons hpiece _ ih =>
      obtain ⟨core, hcore, hcore'⟩ := hpiece
      rw [Binding.numbers, Binding.numbers, number_of_trims hcore hcore', ih]

/-- A blank list is one blank piece. -/
theorem blanks_iff {list : List Char} :
    Blanks list ↔ ∃ piece, list.splitOn ',' = [piece] ∧ Trims piece [] := by
  constructor
  · intro hblanks
    -- A comma is no blank, so nothing is split.
    have hcommas : ∀ c ∈ list, (c == ',') = false := by
      intro c hc
      rw [beq_eq_false_iff_ne]
      rintro rfl
      exact absurd (hblanks _ hc) (by decide)
    exact ⟨list, List.splitOnP_eq_singleton hcommas, trims_nil hblanks⟩
  · rintro ⟨piece, hpieces, hpiece⟩
    have hlist : list = piece := by
      have hjoin : [','].intercalate (list.splitOn ',') = list := List.intercalate_splitOn ','
      rw [hpieces] at hjoin
      simpa using hjoin.symm
    rw [hlist]
    exact trim_eq_nil_iff.mp (trims_iff.mp hpiece)

theorem Trims.unique {text core core' : List Char} (h : Trims text core) (h' : Trims text core') :
    core = core' :=
  (trims_iff.mp h).symm.trans (trims_iff.mp h')

theorem blanks_of_respaced {list list' : List Char}
    (h : List.Forall₂ (fun piece piece' => ∃ core, Trims piece core ∧ Trims piece' core)
      (list.splitOn ',') (list'.splitOn ',')) (hlist : Blanks list) : Blanks list' := by
  obtain ⟨piece, hpieces, hpiece⟩ := blanks_iff.mp hlist
  rw [hpieces, List.forall₂_cons_left_iff] at h
  obtain ⟨piece', rest, ⟨core, hcore, hcore'⟩, hrest, hpieces'⟩ := h
  rw [List.forall₂_nil_left_iff.mp hrest] at hpieces'
  rw [hcore.unique hpiece] at hcore'
  exact blanks_iff.mpr ⟨piece', hpieces', hcore'⟩

theorem elements_of_respaced {value value' : List Char} (h : RespacedList value value') :
    Binding.elements value' = Binding.elements value := by
  obtain ⟨hbare, hbare', hpieces⟩ := h
  rw [elements_bracketed hbare, elements_bracketed hbare', numbers_of_respaced hpieces]
  have hflip : List.Forall₂ (fun piece piece' => ∃ core, Trims piece core ∧ Trims piece' core)
      (List.splitOn ',' _) (List.splitOn ',' _) :=
    hpieces.flip.imp fun _ _ ⟨core, hcore, hcore'⟩ => ⟨core, hcore', hcore⟩
  refine if_congr ?_ rfl rfl
  rw [trim_eq_nil_iff, trim_eq_nil_iff]
  exact ⟨blanks_of_respaced hflip, blanks_of_respaced hpieces⟩

/-- **Bindings follow their notation.**  What is shown of a text that is read as the binding of a
scalar or of a vector is what the notation says, a binding or the message of the leftmost defect,
and blanks in the places that it leaves free change nothing. -/
theorem bindings_read_as_written (text : String) :
    (∀ result, shown (Binding.readScalar text) = result ↔
      Reads NumberReads ScalarBinding.mk text result) ∧
    (∀ result, shown (Binding.readVector text) = result ↔
      Reads ListReads VectorBinding.mk text result) ∧
    (∀ text', Respaced Eq text text' → Binding.readScalar text' = Binding.readScalar text) ∧
    ∀ text', Respaced RespacedList text text' →
      Binding.readVector text' = Binding.readVector text := by
  simp only [readScalar_eq, readVector_eq]
  refine ⟨?_, ?_, ?_, ?_⟩
  · exact fun result => reads_iff numberReads_iff
  · exact fun result => reads_iff listReads_iff
  · exact fun text' h => readWith_of_respaced (fun _ _ heq => by rw [heq]) h
  · exact fun text' h => readWith_of_respaced (fun _ _ hlist => elements_of_respaced hlist) h

/-- A list with blanks of several kinds in it, and one whose second number is missing. -/
theorem spaced_list_reads :
    Respaced RespacedList "v=[-1,2]" "v\t=\u2003[ -1 ,\u00a02]\n" ∧
      Binding.readVector "v\t=\u2003[ -1 ,\u00a02]\n" = Binding.readVector "v=[-1,2]" ∧
      Binding.readVector "v=[-1,2]" = .ok ⟨"v", [-1.0, 2.0]⟩ ∧
      Reads ListReads VectorBinding.mk "v=[[-1,,2" (.error
        "invalid number '': cannot parse float from empty string") := by
  have hpieces : "-1,2".toList.splitOn ',' = ["-1".toList, "2".toList] := by decide
  have hpieces' : " -1 ,\u00a02".toList.splitOn ',' = [" -1 ".toList, "\u00a02".toList] := by decide
  have hbare : Bare "-1,2".toList := by
    constructor <;> rintro c ⟨⟩ <;> decide
  have hbare' : Bare " -1 ,\u00a02".toList := by
    constructor <;> rintro c ⟨⟩ <;> decide
  have hlist :
      RespacedList (bracketed 1 "-1,2".toList 1) (bracketed 1 " -1 ,\u00a02".toList 1) := by
    refine .mk hbare hbare' ?_
    rw [hpieces, hpieces']
    refine .cons ⟨"-1".toList, ?_, ?_⟩ (.cons ⟨"2".toList, ?_, ?_⟩ .nil) <;>
      exact trims_iff.mpr (by decide)
  have htext : "v=[-1,2]".toList = "v".toList ++ '=' :: "[-1,2]".toList := by decide
  have htext' : "v\t=\u2003[ -1 ,\u00a02]\n".toList =
      "v\t".toList ++ '=' :: "\u2003[ -1 ,\u00a02]\n".toList := by decide
  have hname : Trims "v".toList "v".toList := trims_iff.mpr (by decide)
  have hname' : Trims "v\t".toList "v".toList := trims_iff.mpr (by decide)
  have hvalue : Trims "[-1,2]".toList (bracketed 1 "-1,2".toList 1) := trims_iff.mpr (by decide)
  have hvalue' : Trims "\u2003[ -1 ,\u00a02]\n".toList (bracketed 1 " -1 ,\u00a02".toList 1) :=
    trims_iff.mpr (by decide)
  have hspaced : Respaced RespacedList "v=[-1,2]" "v\t=\u2003[ -1 ,\u00a02]\n" :=
    ⟨htext, by decide, htext', by decide, hname, hname', by decide, hvalue, hvalue', hlist⟩
  refine ⟨hspaced, (bindings_read_as_written _).2.2.2 _ hspaced, by decide +kernel, ?_⟩
  exact ((bindings_read_as_written _).2.1 _).mp (by decide +kernel)

end Notation

end PNorm
