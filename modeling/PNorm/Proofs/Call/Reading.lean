import PNorm.Call.Reader
import PNorm.Proofs.Call.Lexing

/-!
# The reader and the grammar

The reader accepts exactly the texts of the grammar and returns what they stand
for (`parse_eq_ok_iff`).

Each rule of the reader is compared with its part of the grammar by `ReadsText`:
what the rule takes from the lexemes of a text is a text of that part, and it
takes any such text that something follows which ends it.  The record of
refusals does not matter for either.  A repetition is compared once for numbers
and arguments alike.  It stops at the last comma that an item follows, and since
no closing bracket starts with a comma, it never takes too much or too little.

The two fields of `ReadsText` are proved apart for every rule, and for different
reasons:

* `sound` follows the reader and collects the pieces that it took.  The induction
  for a repetition is on the length of the input, since every round begins with
  a comma that is used up;
* `complete` follows the derivation, and needs that the rules tried first fail.
  A number is tried before an identifier, so a word that is no keyword must be
  shown not to be one.

That a text has at most one call (`callText_unique`) is read off the equivalence:
the reader is a function.
-/

namespace PNorm

open Grammar

namespace Call

variable {β : Type}

/-! ## Rules of one lexeme -/

/-- A rule takes the texts of `Item`, and any spaces before them, from the front of a text. -/
structure ReadsText (rule : List Lexeme → Attempts → Reading β) (Item : List Char → β → Prop) :
    Prop where
  sound : ∀ {offset cs seen value rest after},
    rule (lexemesFrom offset cs) seen = (some (value, rest), after) →
      ∃ spaces text others, cs = spaces ++ (text ++ others) ∧ Spaces spaces ∧
        Item text value ∧ rest = lexemesFrom (offset + (spaces ++ text).length) others
  complete : ∀ {spaces text others value}, Spaces spaces → Item text value → Ends others →
    ∀ offset seen, ∃ stop after,
      rule (lexemesFrom offset (spaces ++ (text ++ others))) seen =
        (some (value, lexemesFrom stop others), after)

theorem attempt_of_some {rule : Rule} {body : List Lexeme → Attempts → Reading β}
    {input : List Lexeme} {seen after : Attempts} {result : β × List Lexeme}
    (hbody : body input seen = (some result, after)) :
    attempt rule body input seen = (some result, after) := by
  rw [attempt, hbody]

theorem single_of_some {rule : Rule} {read : Token → Option β} {lexeme : Lexeme} {value : β}
    (hread : read lexeme.token = some value) (rest : List Lexeme) (seen : Attempts) :
    single rule read (lexeme :: rest) seen = (some (value, rest), seen) :=
  attempt_of_some (by simp only [hread, Option.map_some])

theorem single_of_none {rule : Rule} {read : Token → Option β} {lexeme : Lexeme}
    (hread : read lexeme.token = none) (rest : List Lexeme) (seen : Attempts) :
    ∃ after, single rule read (lexeme :: rest) seen = (none, after) := by
  simp only [single, attempt, hread, Option.map_none]
  exact ⟨_, rfl⟩

theorem exists_of_single {rule : Rule} {read : Token → Option β} {input rest : List Lexeme}
    {seen after : Attempts} {value : β}
    (h : single rule read input seen = (some (value, rest), after)) :
    ∃ lexeme, input = lexeme :: rest ∧ read lexeme.token = some value := by
  have hbody := attempt_eq_some h
  cases input with
  | nil => simp at hbody
  | cons lexeme others =>
      obtain ⟨hread, -⟩ := Prod.mk.inj hbody
      obtain ⟨found, hfound, hpair⟩ := Option.map_eq_some_iff.mp hread
      obtain ⟨rfl, rfl⟩ := Prod.mk.inj hpair
      exact ⟨lexeme, rfl, hfound⟩

theorem readsText_number : ReadsText number NumberText where
  sound := by
    intro offset cs seen value rest after h
    obtain ⟨lexeme, hinput, hread⟩ := exists_of_single h
    rcases exists_text_of_lexemesFrom hinput with
      ⟨hfinish, -⟩ | ⟨spaces, text, others, rfl, hspaces, htext, rfl⟩
    · rw [hfinish] at hread
      cases hread
    · exact ⟨spaces, text, others, rfl, hspaces, htext.numberText hread, rfl⟩
  complete := by
    intro spaces text others value hspaces htext hothers offset seen
    obtain ⟨start, stop, token, htoken, hlexemes⟩ :=
      lexemesFrom_number hspaces htext hothers offset
    rw [hlexemes]
    exact ⟨stop, seen, single_of_some htoken _ _⟩

/-- A word of the text and the name it is read as. -/
def NameText (text : List Char) (name : String) : Prop :=
  IsWord text ∧ name = String.ofList text

theorem identifier_of_word (start : Nat) (text : List Char) (rest : List Lexeme) (seen : Attempts) :
    identifier (⟨start, .word text⟩ :: rest) seen = (some (String.ofList text, rest), seen) := by
  refine single_of_some ?_ rest seen
  rfl

theorem exists_word_of_identifier {input rest : List Lexeme} {seen after : Attempts} {name : String}
    (h : identifier input seen = (some (name, rest), after)) :
    ∃ start text, input = ⟨start, .word text⟩ :: rest ∧ name = String.ofList text := by
  obtain ⟨⟨start, token⟩, rfl, hread⟩ := exists_of_single h
  cases token with
  | word text => exact ⟨start, text, rfl, (Option.some.inj hread).symm⟩
  | numeral | mark | finish => cases hread

theorem exists_text_of_word {offset start : Nat} {cs text : List Char} {rest : List Lexeme}
    (h : lexemesFrom offset cs = ⟨start, .word text⟩ :: rest) :
    ∃ spaces others, cs = spaces ++ (text ++ others) ∧ Spaces spaces ∧ IsWord text ∧
      rest = lexemesFrom (offset + (spaces ++ text).length) others := by
  rcases exists_text_of_lexemesFrom h with
    ⟨hfinish, -⟩ | ⟨spaces, text', others, rfl, hspaces, htext, rfl⟩
  · cases hfinish
  · cases htext with
    | word hword => exact ⟨spaces, others, rfl, hspaces, hword, rfl⟩

theorem readsText_identifier : ReadsText identifier NameText where
  sound := by
    intro offset cs seen value rest after h
    obtain ⟨start, text, hinput, rfl⟩ := exists_word_of_identifier h
    obtain ⟨spaces, others, rfl, hspaces, hword, rfl⟩ := exists_text_of_word hinput
    exact ⟨spaces, text, others, rfl, hspaces, ⟨hword, rfl⟩, rfl⟩
  complete := by
    rintro spaces text others value hspaces ⟨hword, rfl⟩ hothers offset seen
    obtain ⟨start, stop, hlexemes⟩ := lexemesFrom_word hspaces hword hothers offset
    rw [hlexemes]
    exact ⟨stop, seen, identifier_of_word _ _ _ _⟩

/-! ## Marks and the end -/

theorem mark_sound {c : Char} {result value : β} {offset : Nat} {cs : List Char}
    {rest : List Lexeme} {seen after : Attempts}
    (h : mark c result (lexemesFrom offset cs) seen = (some (value, rest), after)) :
    value = result ∧ after = seen ∧ ∃ spaces others, cs = spaces ++ c :: others ∧
      Spaces spaces ∧ rest = lexemesFrom (offset + (spaces ++ [c]).length) others := by
  cases hinput : lexemesFrom offset cs with
  | nil =>
      rw [hinput] at h
      cases h
  | cons lexeme rest' =>
      rw [hinput, mark] at h
      by_cases htoken : lexeme.token = .mark c
      · rw [if_pos htoken] at h
        cases h
        refine ⟨rfl, rfl, ?_⟩
        rcases exists_text_of_lexemesFrom hinput with
          ⟨hfinish, -⟩ | ⟨spaces, text, others, rfl, hspaces, htext, rfl⟩
        · rw [hfinish] at htoken
          cases htoken
        · rw [htoken] at htext
          cases htext with
          | mark c => exact ⟨spaces, others, rfl, hspaces, rfl⟩
      · rw [if_neg htoken] at h
        cases h

theorem mark_complete {c : Char} {spaces : List Char} (hspaces : Spaces spaces)
    (hc : c ∈ Token.marks) (result : β) (others : List Char) (offset : Nat) (seen : Attempts) :
    ∃ stop, mark c result (lexemesFrom offset (spaces ++ c :: others)) seen =
      (some (result, lexemesFrom stop others), seen) := by
  obtain ⟨start, stop, hlexemes⟩ := lexemesFrom_mark hspaces hc others offset
  exact ⟨stop, by rw [hlexemes, mark, if_pos rfl]⟩

private theorem mark_of_ne {c : Char} {lexeme : Lexeme} (hne : lexeme.token ≠ .mark c) (result : β)
    (rest : List Lexeme) (seen : Attempts) :
    mark c result (lexeme :: rest) seen = (none, seen) := by
  rw [mark, if_neg hne]

theorem finish_sound {offset : Nat} {cs : List Char} {rest : List Lexeme} {seen after : Attempts}
    (h : finish (lexemesFrom offset cs) seen = (some ((), rest), after)) : Spaces cs := by
  obtain ⟨⟨start, token⟩, hinput, hread⟩ := exists_of_single h
  rcases exists_text_of_lexemesFrom hinput with ⟨-, hspaces⟩ | ⟨_, _, _, _, _, htext, _⟩
  · exact hspaces
  · cases htext with
    | word | numeral | mark => cases hread

theorem finish_complete {cs : List Char} (hcs : Spaces cs) (offset : Nat) (seen : Attempts) :
    ∃ rest, finish (lexemesFrom offset cs) seen = (some ((), rest), seen) := by
  have hlexemes := lexemesFrom_spaces hcs offset []
  rw [List.append_nil] at hlexemes
  rw [hlexemes, lexemesFrom]
  refine ⟨[], single_of_some ?_ _ _⟩
  rfl

/-! ## Repetitions -/

/-- `more` repeats a comma and an item, and gives the comma back that no item follows. -/
def Repeats (more : List Lexeme → Attempts → List β × List Lexeme × Attempts)
    (item : List Lexeme → Attempts → Reading β) : Prop :=
  ∀ input seen, more input seen =
    match mark ',' () input seen with
    | (none, after) => ([], input, after)
    | (some (_, rest), after) =>
        match item rest after with
        | (none, after) => ([], input, after)
        | (some (value, rest), after) =>
            let (values, rest, after) := more rest after
            (value :: values, rest, after)

theorem repeats_moreNumbers : Repeats moreNumbers number := by
  intro input seen
  fun_cases moreNumbers input seen with
  | case1 after hmark => rw [hmark]
  | case2 _ item after hmark last hnumber => simp only [hmark, hnumber]
  | case3 _ item after hmark value rest last hnumber values rest' last' hmore =>
      simp only [hmark, hnumber, hmore]

theorem repeats_moreArguments : Repeats moreArguments argument := by
  intro input seen
  fun_cases moreArguments input seen with
  | case1 after hmark => rw [hmark]
  | case2 _ item after hmark last hargument => simp only [hmark, hargument]
  | case3 _ item after hmark arg rest last hargument values rest' last' hmore =>
      simp only [hmark, hargument, hmore]

section Repetition

variable {Item : List Char → β → Prop}
variable {more : List Lexeme → Attempts → List β × List Lexeme × Attempts}
variable {item : List Lexeme → Attempts → Reading β}

theorem more_sound (hmore : Repeats more item) (hitem : ReadsText item Item) {offset : Nat}
    {cs : List Char} {seen after : Attempts} {values : List β} {rest : List Lexeme}
    (h : more (lexemesFrom offset cs) seen = (values, rest, after)) :
    ∃ text others, cs = text ++ others ∧ MoreText Item text values ∧
      rest = lexemesFrom (offset + text.length) others := by
  -- The induction is on the length of the text, which every comma makes shorter.
  induction hlength : cs.length using Nat.strong_induction_on
    generalizing cs offset seen values rest after with
  | h length ih =>
      rw [hmore] at h
      rcases hmark : mark ',' () (lexemesFrom offset cs) seen with ⟨_ | ⟨_, inner⟩, middle⟩ <;>
        simp only [hmark] at h
      · cases h
        exact ⟨[], cs, rfl, .nil, rfl⟩
      · obtain ⟨-, rfl, before, others, rfl, hbefore, rfl⟩ := mark_sound hmark
        rcases hvalue : item (lexemesFrom (offset + (before ++ [',']).length) others) middle with
          ⟨_ | ⟨value, rest'⟩, after'⟩ <;> simp only [hvalue] at h
        · cases h
          exact ⟨[], _, rfl, .nil, rfl⟩
        · obtain ⟨between, text, others, rfl, hbetween, htext, rfl⟩ := hitem.sound hvalue
          cases hrest : more (lexemesFrom (offset + (before ++ [',']).length +
              (between ++ text).length) others) after' with
          | mk values' pair =>
              obtain ⟨rest'', after''⟩ := pair
              simp only [hrest] at h
              cases h
              obtain ⟨text', others', rfl, htext', rfl⟩ :=
                ih _ (by subst hlength; simp; omega) hrest rfl
              refine ⟨_, others', ?_, .cons hbefore hbetween htext htext', ?_⟩
              · simp
              · congr 1
                simp only [List.length_append, List.length_cons, List.length_nil]
                omega

theorem ends_of_moreText {text rest : List Char} {values : List β}
    (htext : MoreText Item text values) (hrest : Ends rest) : Ends (text ++ rest) := by
  cases htext with
  | nil => exact hrest
  | cons hbefore hafter hitem hmore =>
      rw [List.append_assoc]
      exact (ends_cons (by decide)).spaces_append hbefore

/-- A repetition goes on to the bracket that closes the list. -/
theorem more_complete (hmore : Repeats more item) (hitem : ReadsText item Item)
    {text spaces : List Char} {values : List β} {c : Char} (htext : MoreText Item text values)
    (hspaces : Spaces spaces) (hc : c = ')' ∨ c = ']') (others : List Char) (offset : Nat)
    (seen : Attempts) : ∃ stop after,
      more (lexemesFrom offset (text ++ (spaces ++ c :: others))) seen =
        (values, lexemesFrom stop (spaces ++ c :: others), after) := by
  have hmark : c ∈ Token.marks := by rcases hc with rfl | rfl <;> decide
  induction htext generalizing offset seen with
  | nil =>
      -- The bracket is no comma, so the repetition ends before it.
      obtain ⟨start, stop, hlexemes⟩ := lexemesFrom_mark hspaces hmark others offset
      refine ⟨offset, seen, ?_⟩
      rw [List.nil_append, hmore, hlexemes, mark_of_ne]
      rcases hc with rfl | rfl <;> simp
  | @cons before between text rest value values hbefore hbetween hvalue hrest ih =>
      have hends : Ends (rest ++ (spaces ++ c :: others)) :=
        ends_of_moreText hrest ((ends_cons (by rcases hc with rfl | rfl <;> decide)).spaces_append
          hspaces)
      obtain ⟨stop, hcomma⟩ := mark_complete hbefore (by decide : ',' ∈ Token.marks) ()
        (between ++ (text ++ (rest ++ (spaces ++ c :: others)))) offset seen
      obtain ⟨stop, after, hvalue⟩ := hitem.complete hbetween hvalue hends stop seen
      obtain ⟨stop, after, hrest⟩ := ih stop after
      refine ⟨stop, after, ?_⟩
      simp only [List.append_assoc, List.cons_append]
      rw [hmore, hcomma]
      simp only [hvalue, hrest]

/-- An item and a repetition take a list. -/
theorem list_sound (hmore : Repeats more item) (hitem : ReadsText item Item) {offset : Nat}
    {cs : List Char} {seen after after' : Attempts} {value : β} {values : List β}
    {rest rest' : List Lexeme}
    (hfirst : item (lexemesFrom offset cs) seen = (some (value, rest), after))
    (hrest : more rest after = (values, rest', after')) :
    ∃ spaces text others, cs = spaces ++ (text ++ others) ∧ Spaces spaces ∧
      ListText Item text (value :: values) ∧
      rest' = lexemesFrom (offset + (spaces ++ text).length) others := by
  obtain ⟨spaces, text, others, rfl, hspaces, htext, rfl⟩ := hitem.sound hfirst
  obtain ⟨text', others', rfl, htext', rfl⟩ := more_sound hmore hitem hrest
  refine ⟨spaces, text ++ text', others', by simp, hspaces, .cons htext htext', ?_⟩
  congr 1
  simp only [List.length_append]
  omega

theorem list_complete (hmore : Repeats more item) (hitem : ReadsText item Item)
    {before text spaces : List Char} {values : List β} {c : Char} (hbefore : Spaces before)
    (htext : ListText Item text values) (hspaces : Spaces spaces) (hc : c = ')' ∨ c = ']')
    (others : List Char) (offset : Nat) (seen : Attempts) :
    ∃ value values' rest after stop after', values = value :: values' ∧
      item (lexemesFrom offset (before ++ (text ++ (spaces ++ c :: others)))) seen =
        (some (value, rest), after) ∧
      more rest after = (values', lexemesFrom stop (spaces ++ c :: others), after') := by
  cases htext with
  | @cons first rest value values hfirst hrest =>
      have hends : Ends (rest ++ (spaces ++ c :: others)) :=
        ends_of_moreText hrest ((ends_cons (by rcases hc with rfl | rfl <;> decide)).spaces_append
          hspaces)
      obtain ⟨stop, after, hvalue⟩ := hitem.complete hbefore hfirst hends offset seen
      obtain ⟨stop', after', hvalues⟩ :=
        more_complete hmore hitem hrest hspaces hc others stop after
      refine ⟨value, values, _, after, stop', after', rfl, ?_, hvalues⟩
      rw [List.append_assoc]
      exact hvalue

end Repetition

/-! ## Arguments -/

/-- A vector is taken whatever follows, since a bracket closes it. -/
theorem vector_complete {spaces text : List Char} {values : List Float} (hspaces : Spaces spaces)
    (htext : VectorText text values) (others : List Char) (offset : Nat) (seen : Attempts) :
    ∃ stop after, vector (lexemesFrom offset (spaces ++ (text ++ others))) seen =
      (some (values, lexemesFrom stop others), after) := by
  cases htext with
  | @empty inner hinner =>
      obtain ⟨stop, hopen⟩ := mark_complete hspaces (by decide : '[' ∈ Token.marks) ()
        (inner ++ ']' :: others) offset seen
      obtain ⟨start, stop', hlexemes⟩ :=
        lexemesFrom_mark hinner (by decide : ']' ∈ Token.marks) others stop
      -- The reader tries a number first, which the closing bracket refuses.
      obtain ⟨after, hnumber⟩ : ∃ after, number (lexemesFrom stop (inner ++ ']' :: others)) seen =
          (none, after) := by
        rw [hlexemes]
        exact single_of_none rfl _ _
      refine ⟨stop', after, attempt_of_some ?_⟩
      simp only [List.cons_append, List.append_assoc, List.nil_append, hopen, hnumber]
      rw [hlexemes, mark, if_pos rfl]
  | @items before text after values hbefore hitems hafter =>
      obtain ⟨stop, hopen⟩ := mark_complete hspaces (by decide : '[' ∈ Token.marks) ()
        (before ++ (text ++ (after ++ ']' :: others))) offset seen
      obtain ⟨value, values', rest, seen', stop', seen'', rfl, hfirst, hrest⟩ :=
        list_complete repeats_moreNumbers readsText_number hbefore hitems hafter (.inr rfl) others
          stop seen
      obtain ⟨stop'', hclose⟩ := mark_complete hafter (by decide : ']' ∈ Token.marks)
        (value :: values') others stop' seen''
      refine ⟨stop'', seen'', attempt_of_some ?_⟩
      simp only [List.cons_append, List.append_assoc, List.nil_append, hopen, hfirst, hrest,
        hclose]

theorem readsText_vector : ReadsText vector VectorText where
  sound := by
    intro offset cs seen value rest after h
    have hbody := attempt_eq_some h
    rcases hopen : mark '[' () (lexemesFrom offset cs) seen with ⟨_ | ⟨_, inner⟩, middle⟩ <;>
      simp only [hopen] at hbody
    · cases hbody
    · obtain ⟨-, rfl, start, others, rfl, hstart, rfl⟩ := mark_sound hopen
      rcases hfirst : number (lexemesFrom (offset + (start ++ ['[']).length) others) middle with
        ⟨_ | ⟨first, more⟩, last⟩ <;> simp only [hfirst] at hbody
      · -- no number after the bracket
        obtain ⟨rfl, rfl, spaces, others, rfl, hspaces, rfl⟩ := mark_sound hbody
        refine ⟨start, '[' :: (spaces ++ [']']), others, by simp, hstart, .empty hspaces, ?_⟩
        congr 1
        simp only [List.length_append, List.length_cons, List.length_nil]
        omega
      · obtain ⟨before, text, others, rfl, hbefore, htext, hrest⟩ :=
          list_sound repeats_moreNumbers readsText_number hfirst rfl
        simp only [hrest] at hbody
        obtain ⟨rfl, rfl, spaces, others, rfl, hspaces, rfl⟩ := mark_sound hbody
        refine ⟨start, '[' :: (before ++ (text ++ (spaces ++ [']']))), others, by simp, hstart,
          .items hbefore htext hspaces, ?_⟩
        congr 1
        simp only [List.length_append, List.length_cons, List.length_nil]
        omega
  complete := by
    intro spaces text others values hspaces htext _ offset seen
    exact vector_complete hspaces htext others offset seen

theorem vector_of_ne {token : Token} (hne : token ≠ .mark '[') (start : Nat) (rest : List Lexeme)
    (seen : Attempts) : ∃ after, vector (⟨start, token⟩ :: rest) seen = (none, after) := by
  simp only [vector, attempt, mark, if_neg hne]
  exact ⟨_, rfl⟩

/-- A word is read as a number if it is a keyword. -/
theorem exists_number_of_keyword {text : List Char} (htext : text ∈ keywords) (start : Nat)
    (rest : List Lexeme) (seen : Attempts) :
    ∃ x, number (⟨start, .word text⟩ :: rest) seen = (some (x, rest), seen) := by
  cases hkeyword : keyword? false text with
  | none => exact absurd htext (keyword?_eq_none_iff.mp hkeyword)
  | some n =>
      refine ⟨n.toFloat, single_of_some ?_ _ _⟩
      rw [Token.number?, hkeyword, Option.map_some]

/-- Otherwise the two choices before an identifier fail. -/
theorem argument_of_word {text : List Char} (htext : text ∉ keywords) (start : Nat)
    (rest : List Lexeme) (seen : Attempts) :
    ∃ after, argument (⟨start, .word text⟩ :: rest) seen =
      (some (.identifier (String.ofList text), rest), after) := by
  have hread : Token.number? (.word text) = none := by
    rw [Token.number?, keyword?_eq_none_iff.mpr htext, Option.map_none]
  have hne : Token.word text ≠ .mark '[' := by simp
  obtain ⟨after, hvector⟩ := vector_of_ne hne start rest seen
  obtain ⟨after', hnumber⟩ : ∃ after',
      number (⟨start, .word text⟩ :: rest) after = (none, after') := single_of_none hread _ _
  refine ⟨after', attempt_of_some ?_⟩
  simp only [hvector, hnumber, identifier_of_word]

theorem readsText_argument : ReadsText argument ArgumentText where
  sound := by
    intro offset cs seen value rest after h
    have hbody := attempt_eq_some h
    rcases hvector : vector (lexemesFrom offset cs) seen with ⟨_ | ⟨values, stop⟩, middle⟩ <;>
      simp only [hvector] at hbody
    · rcases hnumber : number (lexemesFrom offset cs) middle with ⟨_ | ⟨x, stop⟩, last⟩ <;>
        simp only [hnumber] at hbody
      · rcases hidentifier : identifier (lexemesFrom offset cs) last with
          ⟨_ | ⟨name, stop⟩, final⟩ <;> simp only [hidentifier] at hbody
        · cases hbody
        · cases hbody
          obtain ⟨start, text, hinput, rfl⟩ := exists_word_of_identifier hidentifier
          obtain ⟨spaces, others, rfl, hspaces, hword, rfl⟩ := exists_text_of_word hinput
          refine ⟨spaces, text, others, rfl, hspaces, .identifier hword ?_, rfl⟩
          -- A keyword would have been taken by the choice before.
          intro hkeyword
          rw [hinput] at hnumber
          obtain ⟨x, hx⟩ := exists_number_of_keyword hkeyword start (lexemesFrom _ others) _
          rw [hx] at hnumber
          cases hnumber
      · cases hbody
        obtain ⟨spaces, text, others, rfl, hspaces, htext, rfl⟩ := readsText_number.sound hnumber
        exact ⟨spaces, text, others, rfl, hspaces, .number htext, rfl⟩
    · cases hbody
      obtain ⟨spaces, text, others, rfl, hspaces, htext, rfl⟩ := readsText_vector.sound hvector
      exact ⟨spaces, text, others, rfl, hspaces, .vector htext, rfl⟩
  complete := by
    intro spaces text others value hspaces htext hothers offset seen
    cases htext with
    | vector hvector =>
        obtain ⟨stop, after, h⟩ := readsText_vector.complete hspaces hvector hothers offset seen
        exact ⟨stop, after, attempt_of_some (by simp only [h])⟩
    | number hnumber =>
        obtain ⟨start, stop, token, htoken, hlexemes⟩ :=
          lexemesFrom_number hspaces hnumber hothers offset
        rw [hlexemes]
        -- A token that spells a number opens no vector.
        have hne : token ≠ .mark '[' := by
          rintro rfl
          cases htoken
        obtain ⟨after, hvector⟩ := vector_of_ne hne start (lexemesFrom stop others) seen
        have hread : number (⟨start, token⟩ :: lexemesFrom stop others) after =
            (some (_, lexemesFrom stop others), after) := single_of_some htoken _ _
        refine ⟨stop, after, attempt_of_some ?_⟩
        simp only [hvector, hread]
    | identifier hword hkeyword =>
        obtain ⟨start, stop, hlexemes⟩ := lexemesFrom_word hspaces hword hothers offset
        rw [hlexemes]
        obtain ⟨after, h⟩ := argument_of_word hkeyword start (lexemesFrom stop others) seen
        exact ⟨stop, after, h⟩

/-! ## Calls -/

/-- The spaces behind a call are not taken. -/
theorem call_sound {cs : List Char} {offset : Nat} {seen after : Attempts} {result : Call}
    {rest : List Lexeme} (h : call (lexemesFrom offset cs) seen = (some (result, rest), after)) :
    ∃ text others, cs = text ++ others ∧ CallText text result ∧
      rest = lexemesFrom (offset + text.length) others := by
  have hbody := attempt_eq_some h
  rcases hname : identifier (lexemesFrom offset cs) seen with ⟨_ | ⟨name, stop⟩, named⟩ <;>
    simp only [hname] at hbody
  · cases hbody
  · obtain ⟨start, name, others, rfl, hstart, ⟨hword, rfl⟩, rfl⟩ :=
      readsText_identifier.sound hname
    rcases hopen : mark '(' () (lexemesFrom (offset + (start ++ name).length) others) named with
      ⟨_ | ⟨_, inner⟩, opened⟩ <;> simp only [hopen] at hbody
    · cases hbody
    · obtain ⟨-, rfl, beforeOpen, others, rfl, hbeforeOpen, rfl⟩ := mark_sound hopen
      rcases hfirst : argument (lexemesFrom (offset + (start ++ name).length +
          (beforeOpen ++ ['(']).length) others) opened with
        ⟨_ | ⟨first, more⟩, last⟩ <;> simp only [hfirst] at hbody
      · cases hbody
      · obtain ⟨afterOpen, args, others, rfl, hafterOpen, hargs, hrest⟩ :=
          list_sound repeats_moreArguments readsText_argument hfirst rfl
        simp only [hrest] at hbody
        obtain ⟨rfl, rfl, beforeClose, others, rfl, hbeforeClose, rfl⟩ := mark_sound hbody
        refine ⟨_, others, ?_, .mk hstart hword hbeforeOpen hafterOpen hargs hbeforeClose
          spaces_nil, ?_⟩
        · simp only [List.append_assoc, List.cons_append, List.nil_append]
        · congr 1
          simp only [List.length_append, List.length_cons, List.length_nil]
          omega

/-- A call is taken whatever follows, and the spaces behind it are left. -/
theorem call_complete {source : List Char} {result : Call} (htext : CallText source result)
    (others : List Char) (offset : Nat) (seen : Attempts) : ∃ spaces stop after, Spaces spaces ∧
      call (lexemesFrom offset (source ++ others)) seen =
        (some (result, lexemesFrom stop (spaces ++ others)), after) := by
  obtain @⟨start, name, beforeOpen, afterOpen, args, beforeClose, finish, values, hstart, hname,
    hbeforeOpen, hafterOpen, hargs, hbeforeClose, hfinish⟩ := htext
  have hends : Ends (beforeOpen ++ '(' :: (afterOpen ++
      (args ++ (beforeClose ++ ')' :: (finish ++ others))))) :=
    (ends_cons (by decide)).spaces_append hbeforeOpen
  obtain ⟨stop, after, hidentifier⟩ :=
    readsText_identifier.complete hstart ⟨hname, rfl⟩ hends offset seen
  obtain ⟨stop, hopen⟩ := mark_complete hbeforeOpen (by decide : '(' ∈ Token.marks) ()
    (afterOpen ++ (args ++ (beforeClose ++ ')' :: (finish ++ others)))) stop after
  obtain ⟨value, values', rest, after', stop, after'', rfl, hfirst, hrest⟩ :=
    list_complete repeats_moreArguments readsText_argument hafterOpen hargs hbeforeClose (.inl rfl)
      (finish ++ others) stop after
  obtain ⟨stop, hclose⟩ := mark_complete hbeforeClose (by decide : ')' ∈ Token.marks)
    (Call.mk (String.ofList name) (value :: values')) (finish ++ others) stop after''
  refine ⟨finish, stop, after'', hfinish, attempt_of_some ?_⟩
  simp only [List.append_assoc, List.cons_append, hidentifier, hopen, hfirst, hrest, hclose]

theorem program_eq_some_iff {source : List Char} {result : Call} :
    (program (lexemes source)).1 = some result ↔ CallText source result := by
  constructor
  · intro h
    unfold program at h
    rcases hcall : Call.call (lexemes source) .none with ⟨_ | ⟨found, rest⟩, after⟩ <;>
      simp only [hcall] at h
    · cases h
    · rcases hfinish : finish rest after with ⟨_ | ⟨_, stop⟩, last⟩ <;> simp only [hfinish] at h
      · cases h
      · cases h
        obtain ⟨text, others, rfl, htext, rfl⟩ := call_sound hcall
        exact htext.append_spaces (finish_sound hfinish)
  · intro htext
    obtain ⟨spaces, stop, after, hspaces, hcall⟩ := call_complete htext [] 0 Attempts.none
    obtain ⟨rest, hfinish⟩ := finish_complete hspaces stop after
    simp only [List.append_nil] at hcall
    simp only [program, lexemes, hcall, hfinish]

/-- The reader accepts a text as a call exactly if the grammar does. -/
theorem parse_eq_ok_iff {source : String} {call : Call} :
    parse source = .ok call ↔ CallText source.toList call := by
  rw [← program_eq_some_iff, parse]
  rcases program (lexemes source.toList) with ⟨_ | found, after⟩ <;> simp

/-! ## Every text has one meaning -/

theorem callText_unique {source : List Char} {call call' : Call} (hcall : CallText source call)
    (hcall' : CallText source call') : call = call' := by
  have h : parse (String.ofList source) = .ok call := parse_eq_ok_iff.mpr (by simpa using hcall)
  have h' : parse (String.ofList source) = .ok call' := parse_eq_ok_iff.mpr (by simpa using hcall')
  exact Except.ok.inj (h.symm.trans h')

theorem argumentText_unique {text : List Char} {argument argument' : Argument}
    (hargument : ArgumentText text argument) (hargument' : ArgumentText text argument') :
    argument = argument' := by
  obtain ⟨_, _, h⟩ := readsText_argument.complete spaces_nil hargument ends_nil 0 Attempts.none
  obtain ⟨_, _, h'⟩ := readsText_argument.complete spaces_nil hargument' ends_nil 0 Attempts.none
  have hpair := h.symm.trans h'
  simp only [Prod.mk.injEq, Option.some.injEq] at hpair
  exact hpair.1.1

theorem args_ne_nil_of_callText {source : List Char} {call : Call} (hcall : CallText source call) :
    call.args ≠ [] := by
  cases hcall with
  | mk _ _ _ _ hargs =>
      cases hargs with
      | cons => simp

/-- A keyword is a number wherever it is an argument. -/
theorem argumentText_keyword {word : List Char} (hword : word ∈ keywords) :
    ∃ x, ∀ argument, ArgumentText word argument ↔ argument = .number x := by
  obtain ⟨n, hspells⟩ : ∃ n, Spells word n := by
    simp only [keywords, List.mem_cons, List.not_mem_nil, or_false] at hword
    rcases hword with rfl | rfl | rfl
    · exact ⟨_, .nan .absent⟩
    · exact ⟨_, .infinite .absent (.inl rfl)⟩
    · exact ⟨_, .infinite .absent (.inr rfl)⟩
  have hnumber : ArgumentText word (.number n.toFloat) :=
    .number ⟨n, hspells, Numeral.rounds_iff.mpr rfl⟩
  refine ⟨n.toFloat, fun argument => ⟨fun h => argumentText_unique h hnumber, ?_⟩⟩
  rintro rfl
  exact hnumber

/-- Every other word is an identifier there. -/
theorem argumentText_word {word : List Char} (hword : IsWord word) (hkeyword : word ∉ keywords)
    (argument : Argument) :
    ArgumentText word argument ↔ argument = .identifier (String.ofList word) := by
  have hidentifier := ArgumentText.identifier hword hkeyword
  constructor
  · intro h
    exact argumentText_unique h hidentifier
  · rintro rfl
    exact hidentifier

private theorem append_not_mem_keywords {word rest : List Char} (hword : word ∈ keywords)
    (hrest : rest ≠ []) : word ++ rest ∉ keywords := by
  simp only [keywords, List.mem_cons, List.not_mem_nil, or_false] at hword ⊢
  rcases hword with rfl | rfl | rfl <;> simp [hrest]

/-- The reader and the grammar agree on every text.  The grammar gives a text at most one call, and
never one without arguments.  An argument that is spelled like a keyword is a number, and every
longer word is an identifier.  A number of the grammar means the same when it is read as a whole
text. -/
theorem parse_follows_grammar :
    (∀ source call, parse source = .ok call ↔ CallText source.toList call) ∧
    (∀ source call call', CallText source call → CallText source call' → call = call') ∧
    (∀ source call, CallText source call → call.args ≠ []) ∧
    (∀ word ∈ keywords, ∃ x, ∀ argument, ArgumentText word argument ↔ argument = .number x) ∧
    (∀ word ∈ keywords, ∀ rest ≠ [], IsWord (word ++ rest) → ∀ argument,
      ArgumentText (word ++ rest) argument ↔
        argument = .identifier (String.ofList (word ++ rest))) ∧
    (∀ text x, NumberText text x → (Numeral.ofChars? text).map Numeral.toFloat = some x) := by
  refine ⟨?_, ?_, ?_, ?_, ?_, ?_⟩
  · intro source call
    exact parse_eq_ok_iff
  · intro source call call' hcall hcall'
    exact callText_unique hcall hcall'
  · intro source call hcall
    exact args_ne_nil_of_callText hcall
  · intro word hword
    exact argumentText_keyword hword
  · intro word hword rest hrest hlonger argument
    exact argumentText_word hlonger (append_not_mem_keywords hword hrest) argument
  · rintro text x ⟨n, hspells, hx⟩
    rw [Numeral.ofChars?_of_spells hspells, Option.map_some, Numeral.rounds_iff.mp hx]

theorem parse_spaced_call :
    parse " f( info , [ ] )" = .ok ⟨"f", [.identifier "info", .vector []]⟩ := by
  have hspaces : Spaces [' '] := by simp [Spaces, Text.isSpace]
  have hinfo : ArgumentText "info".toList (.identifier "info") :=
    .identifier (by simp [IsWord, isWordStart, isWordPart]) (by decide)
  have hvector : ArgumentText ['[', ' ', ']'] (.vector []) := .vector (.empty hspaces)
  have hname : IsWord ['f'] := by simp [IsWord, isWordStart]
  exact (parse_follows_grammar.1 _ _).mpr (.mk hspaces hname spaces_nil hspaces
    (.cons hinfo (.cons hspaces hspaces hvector .nil)) hspaces spaces_nil)

end Call

end PNorm
