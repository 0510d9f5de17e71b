import PNorm.Proofs.Call.Matching

/-!
# Where a refusal points

When a text is no call, the reader reports the furthest place at which a rule was
refused and the rules refused there.  `refusal_points_at_failure` says that the
report is to the point: what stands before the place can be completed to a call,
none of the named rules matches there, and the names are one of seven lists.

The record changes all the time while the reader goes back and forth, so each
rule is followed from one place to the next.

* `Opens Item before` says that a list of items can start behind `before`.  It is
  carried along past every opening bracket and every comma, and it is what makes
  the text before a refusal completable.
* A rule that starts behind everything on record leaves the record alone or makes
  it `Reported`, and a rule that fails always does the latter.
* After a rule that succeeded the record is behind the next lexeme, with one
  exception.  A repetition may stop at a comma whose item was refused, further on
  than the comma.  No closing bracket follows such a comma, so the call fails.

The record is written bottom up.  A rule that fails looks at what its parts have
put on record at its own place: it stands aside if that was one part
(`refuse_of_length`) and replaces several (`refuse_of_one_lt`), and a rule without
parts is added to what is there (`refuse_countAt`).  This is why an argument shows
up as `arg` and not as its three alternatives, and a call without a name as a
missing identifier.

`Settles` has one constructor for each way in which a rule can end, and every
lemma from `vector_settles` on is a case analysis over it.
-/

namespace PNorm

open Grammar

namespace Attempts

/-! ## The record of refusals -/

variable {a : Attempts} {rule : Rule} {offset : Nat}

/-- Nothing is on record at `offset` or further on. -/
def Clear (a : Attempts) (offset : Nat) : Prop :=
  a.offset < offset ∨ a.offset = offset ∧ a.rules = []

private theorem clear_none (offset : Nat) : none.Clear offset := by
  rcases Nat.eq_zero_or_pos offset with rfl | hpos
  · exact .inr ⟨rfl, rfl⟩
  · exact .inl hpos

theorem Clear.countAt (ha : a.Clear offset) : a.countAt offset = 0 := by
  unfold Attempts.countAt
  rcases ha with hlt | ⟨rfl, hrules⟩
  · rw [if_neg (by omega)]
  · rw [if_pos rfl, hrules, List.length_nil]

/-- A refusal further on is a new record. -/
theorem Clear.refuse (ha : a.Clear offset) : a.refuse rule offset 0 = ⟨offset, [rule]⟩ := by
  rw [Attempts.refuse, ha.countAt, if_neg (by omega)]
  rcases ha with hlt | ⟨rfl, hrules⟩
  · rw [if_neg (by omega), if_pos hlt]
  · rw [if_pos rfl, hrules, List.take_nil, List.nil_append]

/-- A refusal nearer than the record leaves it. -/
theorem refuse_of_lt (ha : offset < a.offset) (before : Nat) : a.refuse rule offset before = a := by
  have hne : offset ≠ a.offset := ha.ne
  rw [refuse, countAt, if_neg hne, if_neg (by omega), if_neg hne, if_neg (by omega)]

/-- A rule that has one refused part leaves that part in its stead. -/
theorem refuse_of_length (ha : a.offset = offset) (hrules : a.rules.length = 1) :
    a.refuse rule offset 0 = a := by
  rw [refuse, countAt, if_pos ha.symm, if_pos hrules]

/-- A rule that has several refused parts replaces them. -/
theorem refuse_of_one_lt {rules : List Rule} (hrules : 1 < rules.length) :
    refuse ⟨offset, rules⟩ rule offset 0 = ⟨offset, [rule]⟩ := by
  rw [refuse, countAt, if_pos rfl, if_neg (by simpa using hrules.ne'), if_pos rfl, List.take_zero,
    List.nil_append]

/-- A rule without parts is added to what is on record at its place. -/
theorem refuse_countAt (rules : List Rule) :
    refuse ⟨offset, rules⟩ rule offset (countAt ⟨offset, rules⟩ offset) =
      ⟨offset, rules ++ [rule]⟩ := by
  simp [refuse, countAt]

end Attempts

/-! ## Texts that can be completed -/

namespace Grammar

variable {β : Type} {Item : List Char → β → Prop} {before spaces : List Char}

/-- A call can start like this. -/
def Viable (before : List Char) : Prop :=
  ∃ tail result, CallText (before ++ tail) result

/-- A list of items can follow, with any spaces in front, and then the text can be completed. -/
def Opens (Item : List Char → β → Prop) (before : List Char) : Prop :=
  ∀ spaces text values, Spaces spaces → ListText Item text values →
    Viable (before ++ (spaces ++ text))

theorem Viable.of_append {more : List Char} (h : Viable (before ++ more)) : Viable before := by
  obtain ⟨tail, result, htext⟩ := h
  exact ⟨more ++ tail, result, by rwa [List.append_assoc] at htext⟩

theorem Opens.append_spaces (h : Opens Item before) (hspaces : Spaces spaces) :
    Opens Item (before ++ spaces) := by
  intro spaces' text values hspaces' htext
  have hviable := h (spaces ++ spaces') text values (hspaces.append hspaces') htext
  simpa using hviable

/-- Behind a comma the list goes on. -/
theorem Opens.comma (h : Opens Item before) {text : List Char} {value : β} (hitem : Item text value)
    (hspaces : Spaces spaces) : Opens Item (before ++ text ++ (spaces ++ [','])) := by
  intro spaces' text' values hspaces' htext'
  cases htext' with
  | @cons first rest value' values hfirst hrest =>
      have hviable := h [] _ _ spaces_nil (.cons hitem (.cons hspaces hspaces' hfirst hrest))
      simpa using hviable

theorem Opens.viable (h : Opens Item before) {text : List Char} {value : β}
    (hitem : Item text value) : Viable before :=
  (h [] (text ++ []) [value] spaces_nil (.cons hitem .nil)).of_append

theorem argumentText_empty : ArgumentText ['[', ']'] (.vector []) :=
  .vector (.empty spaces_nil)

/-- Behind the bracket of an argument a list of numbers can follow. -/
theorem Opens.bracket (h : Opens ArgumentText before) : Opens NumberText (before ++ ['[']) := by
  intro spaces text values hspaces htext
  have hvector : ArgumentText ('[' :: (spaces ++ (text ++ ([] ++ [']'])))) (.vector values) :=
    .vector (.items hspaces htext spaces_nil)
  have hviable := h [] _ _ spaces_nil (.cons hvector .nil)
  have hcut : Viable (before ++ (['['] ++ (spaces ++ text)) ++ [']']) := by simpa using hviable
  simpa using hcut.of_append

/-- Behind the parenthesis of a call a list of arguments can follow. -/
theorem opens_call {start name beforeOpen : List Char} (hstart : Spaces start) (hname : IsWord name)
    (hbeforeOpen : Spaces beforeOpen) :
    Opens ArgumentText (start ++ name ++ (beforeOpen ++ ['('])) := by
  intro spaces text values hspaces htext
  have hcall := CallText.mk hstart hname hbeforeOpen hspaces htext spaces_nil spaces_nil
  exact ⟨[')'], _, by simpa using hcall⟩

private theorem viable_spaces {start : List Char} (hstart : Spaces start) : Viable start := by
  have hname : IsWord ['f'] := by simp [IsWord, isWordStart]
  have hopens := opens_call hstart hname spaces_nil
  exact (hopens.viable argumentText_empty).of_append.of_append

end Grammar

namespace Call

/-! ## Reports -/

/-- The lists of rules that a report can name. -/
def reports : List (List Rule) :=
  [[.identifier], [.call], [.arg], [.vector], [.number], [.vector, .number], [.finish]]

/-- What a record says about a text is to the point. -/
structure Reported (source : List Char) (a : Attempts) : Prop where
  within : a.offset ≤ source.length
  viable : Viable (source.take a.offset)
  listed : a.rules ∈ reports
  refused : ∀ rule ∈ a.rules, ¬ Matches rule (source.drop a.offset)

theorem reported_at {source before cs : List Char} {rules : List Rule}
    (hsource : before ++ cs = source) (hviable : Viable before) (hrules : rules ∈ reports)
    (hrefused : ∀ rule ∈ rules, ¬ Matches rule cs) : Reported source ⟨before.length, rules⟩ := by
  subst hsource
  refine ⟨?_, ?_, hrules, ?_⟩
  · exact List.length_append ▸ Nat.le_add_right _ _
  · rwa [List.take_left]
  · rwa [List.drop_left]

/-- A rule that starts at `start` leaves the record alone or makes it a report. -/
def Noted (source : List Char) (start : Nat) (seen after : Attempts) : Prop :=
  after = seen ∨ Reported source after ∧ start ≤ after.offset

theorem Noted.mono {source : List Char} {start start' : Nat} {seen after : Attempts}
    (h : Noted source start' seen after) (hle : start ≤ start') :
    Noted source start seen after := by
  rcases h with rfl | ⟨hreported, hstart⟩
  · exact .inl rfl
  · exact .inr ⟨hreported, hle.trans hstart⟩

theorem Noted.trans {source : List Char} {start start' : Nat} {seen after after' : Attempts}
    (h : Noted source start seen after) (h' : Noted source start' after after')
    (hle : start ≤ start') : Noted source start seen after' := by
  rcases h' with rfl | ⟨hreported, hstart⟩
  · exact h
  · exact .inr ⟨hreported, hle.trans hstart⟩

/-! ## Places -/

theorem le_nextOffset (offset : Nat) (cs : List Char) :
    offset ≤ nextOffset (lexemesFrom offset cs) := by
  obtain ⟨spaces, rest, rfl, hspaces, hrest⟩ := exists_ready cs
  obtain ⟨others, hlexemes⟩ := lexemesFrom_ready hrest (offset + spaces.length)
  rw [lexemesFrom_spaces hspaces, hlexemes, nextOffset]
  exact Nat.le_add_right _ _

private theorem nextOffset_spaces {spaces : List Char} {c : Char} (hspaces : Spaces spaces)
    (hc : Text.isSpace c = false) (offset : Nat) (rest : List Char) :
    nextOffset (lexemesFrom offset (spaces ++ c :: rest)) = offset + spaces.length := by
  rw [lexemesFrom_spaces hspaces, lexemesFrom_cons hc, nextOffset]

/-- Every lexeme but the last has a place of its own. -/
theorem offset_lt_nextOffset {offset : Nat} {cs : List Char} {lexeme : Lexeme}
    {others : List Lexeme} (h : lexemesFrom offset cs = lexeme :: others)
    (hne : lexeme.token ≠ .finish) : lexeme.offset < nextOffset others := by
  obtain ⟨spaces, rest, rfl, hspaces, hrest⟩ := exists_ready cs
  rw [lexemesFrom_spaces hspaces] at h
  cases rest with
  | nil =>
      rw [lexemesFrom] at h
      cases h
      exact absurd rfl hne
  | cons c rest =>
      rw [lexemesFrom_cons (hrest c rfl)] at h
      cases h
      have hsize : 0 < (Token.scan c rest).2 := Nat.pos_of_ne_zero fun hzero =>
        (Token.scan_sound c rest).ne_nil (by rw [hzero, List.take_zero])
      have hle := le_nextOffset (offset + spaces.length + (Token.scan c rest).2)
        (rest.drop ((Token.scan c rest).2 - 1))
      simp only
      omega

section Mark

variable {β : Type} {c : Char} {result value : β} {input rest : List Lexeme}
variable {seen after : Attempts}

theorem exists_of_mark (h : mark c result input seen = (some (value, rest), after)) :
    ∃ start, input = ⟨start, .mark c⟩ :: rest := by
  cases input with
  | nil => cases h
  | cons lexeme others =>
      rw [mark] at h
      by_cases htoken : lexeme.token = .mark c
      · rw [if_pos htoken] at h
        cases h
        exact ⟨lexeme.offset, by rw [← htoken]⟩
      · rw [if_neg htoken] at h
        cases h

theorem eq_of_mark_eq_none (h : mark c result input seen = (none, after)) : after = seen := by
  cases input with
  | nil =>
      cases h
      rfl
  | cons lexeme others =>
      rw [mark] at h
      split at h
      · cases h
      · cases h
        rfl

end Mark

/-! ## Rules of one lexeme -/

/-- What a rule for an item that starts at `start` did to the record.  After a success the record is
behind the next lexeme, and a failure is on record. -/
def Tracks {β : Type} (source : List Char) (start : Nat) (seen : Attempts) : Reading β → Prop
  | (some (_, rest), after) => Noted source start seen after ∧ after.offset < nextOffset rest
  | (none, after) => Reported source after ∧ start ≤ after.offset

/-- What the parts of a rule did to the record, the first of them at `start`. -/
def Carried {β : Type} (source : List Char) (start : Nat) (seen : Attempts) (reading : Reading β) :
    Prop :=
  Noted source start seen reading.2 ∧ ∀ result ∈ reading.1, reading.2.offset < nextOffset result.2

theorem Carried.mono {β : Type} {source : List Char} {start start' : Nat} {seen : Attempts}
    {reading : Reading β} (h : Carried source start' seen reading) (hle : start ≤ start') :
    Carried source start seen reading :=
  ⟨h.1.mono hle, h.2⟩

/-- A closing bracket carries the record on if that ends before the bracket. -/
theorem carried_mark {β : Type} {source cs : List Char} {start offset : Nat}
    {seen after : Attempts} {c : Char} {result : β} (hnoted : Noted source start seen after)
    (hplace : ∀ place others, lexemesFrom offset cs = ⟨place, .mark c⟩ :: others →
      after.offset ≤ place) :
    Carried source start seen (mark c result (lexemesFrom offset cs) after) := by
  cases hmark : mark c result (lexemesFrom offset cs) after with
  | mk reading after' =>
      cases reading with
      | none =>
          rw [eq_of_mark_eq_none hmark]
          exact ⟨hnoted, by simp⟩
      | some found =>
          obtain ⟨value, rest⟩ := found
          obtain ⟨place, hlexemes⟩ := exists_of_mark hmark
          obtain ⟨-, rfl, -⟩ := mark_sound hmark
          refine ⟨hnoted, ?_⟩
          rintro result ⟨⟩
          exact (hplace place rest hlexemes).trans_lt (offset_lt_nextOffset hlexemes (by simp))

/-- What a rule with parts that starts behind `before` does to the record.  If it is refused, it is
on record alone or a part of it is, further on. -/
inductive Settles {β : Type} (source before : List Char) (rule : Rule) (seen : Attempts) :
    Reading β → Prop
  | taken {value : β} {rest : List Lexeme} {after : Attempts}
      (hnoted : Noted source before.length seen after) (hrest : after.offset < nextOffset rest) :
      Settles source before rule seen (some (value, rest), after)
  | whole (hreported : Reported source ⟨before.length, [rule]⟩) :
      Settles source before rule seen (none, ⟨before.length, [rule]⟩)
  | part {after : Attempts} (hreported : Reported source after)
      (hlt : before.length < after.offset) : Settles source before rule seen (none, after)

theorem attempt_settles {β : Type} {source before cs : List Char} {seen : Attempts} {rule : Rule}
    {body : List Lexeme → Attempts → Reading β} {input : List Lexeme} {start : Nat}
    (hsource : before ++ cs = source) (hviable : Viable before)
    (hinput : nextOffset input = before.length) (hseen : seen.Clear before.length)
    (hrule : [rule] ∈ reports) (hstart : before.length < start)
    (hbody : Carried source start seen (body input seen))
    (hrefused : (attempt rule body input seen).1 = none → ¬ Matches rule cs) :
    Settles source before rule seen (attempt rule body input seen) := by
  unfold attempt at hrefused ⊢
  rcases hfound : body input seen with ⟨_ | found, after⟩ <;>
    rw [hfound] at hbody <;> simp only [hfound] at hrefused ⊢
  · rw [hinput, hseen.countAt]
    rcases hbody.1 with hsame | ⟨hreported, hle⟩
    · obtain rfl : after = seen := hsame
      rw [hseen.refuse]
      exact .whole (reported_at hsource hviable hrule (by simpa using hrefused))
    · have hlt := hstart.trans_le hle
      rw [Attempts.refuse_of_lt hlt]
      exact .part hreported hlt
  · exact .taken (hbody.1.mono hstart.le) (hbody.2 found rfl)

/-- A rule for an item tracks wherever a list of items can start. -/
def Notes {β : Type} (rule : List Lexeme → Attempts → Reading β) (Item : List Char → β → Prop) :
    Prop :=
  ∀ {source before cs : List Char} {seen : Attempts}, before ++ cs = source → Opens Item before →
    seen.offset < before.length →
      Tracks source before.length seen (rule (lexemesFrom before.length cs) seen)

theorem Tracks.mono {β : Type} {source : List Char} {start start' : Nat} {seen : Attempts}
    {reading : Reading β} (h : Tracks source start' seen reading) (hle : start ≤ start') :
    Tracks source start seen reading := by
  obtain ⟨_ | ⟨value, rest⟩, after⟩ := reading
  · exact ⟨h.1, hle.trans h.2⟩
  · exact ⟨h.1.mono hle, h.2⟩

/-- It is enough to look at places without leading spaces. -/
theorem notes_of_ready {β : Type} {rule : List Lexeme → Attempts → Reading β}
    {Item : List Char → β → Prop}
    (h : ∀ {source before cs : List Char} {seen : Attempts}, before ++ cs = source →
      Opens Item before → seen.offset < before.length → Ready cs →
        Tracks source before.length seen (rule (lexemesFrom before.length cs) seen)) :
    Notes rule Item := by
  intro source before cs seen hsource hopens hseen
  obtain ⟨spaces, rest, rfl, hspaces, hrest⟩ := exists_ready cs
  rw [← List.append_assoc] at hsource
  have hle : before.length ≤ (before ++ spaces).length := by simp
  have htracks := h hsource (hopens.append_spaces hspaces) (hseen.trans_le hle) hrest
  rw [lexemesFrom_spaces hspaces, ← List.length_append]
  exact htracks.mono hle

/-- A rule of one lexeme takes it or is refused at its place. -/
theorem single_ready {β : Type} {rule : Rule} {read : Token → Option β}
    {parse : List Lexeme → Attempts → Reading β} (hparse : parse = single rule read)
    (hfinish : read .finish = none) {cs : List Char} (hcs : Ready cs) (offset : Nat)
    (seen : Attempts) :
    (∃ value rest, offset < nextOffset rest ∧
      parse (lexemesFrom offset cs) seen = (some (value, rest), seen)) ∨
    parse (lexemesFrom offset cs) seen =
      (none, seen.refuse rule offset (seen.countAt offset)) := by
  subst hparse
  obtain ⟨others, hlexemes⟩ := lexemesFrom_ready hcs offset
  rw [hlexemes]
  cases hread : read (Token.next cs) with
  | some value =>
      have hne : Token.next cs ≠ .finish := by
        intro heq
        rw [heq, hfinish] at hread
        cases hread
      have hlt := offset_lt_nextOffset hlexemes hne
      exact .inl ⟨value, others, hlt, single_of_some hread _ _⟩
  | none =>
      right
      simp only [single, attempt, hread, Option.map_none, nextOffset]

theorem notes_number : Notes number NumberText := by
  refine notes_of_ready fun {source before cs seen} hsource hopens hseen hcs => ?_
  rcases single_ready (rfl : number = _) rfl hcs before.length seen with ⟨value, rest, hlt, h⟩ | h
  · rw [h]
    exact ⟨.inl rfl, hseen.trans hlt⟩
  · have hclear : seen.Clear before.length := .inl hseen
    have hnumber := not_matches_of_none (matches_number_iff hcs _ _) (congrArg Prod.fst h)
    rw [h, hclear.countAt, hclear.refuse]
    exact ⟨reported_at hsource (hopens.viable numberText_nan) (by decide)
      (by simpa using hnumber), le_rfl⟩

/-! ## Lists -/

section Repetition

variable {β : Type} {Item : List Char → β → Prop}
variable {more : List Lexeme → Attempts → List β × List Lexeme × Attempts}
variable {item : List Lexeme → Attempts → Reading β}

/-- A repetition behind the first item leaves the record behind the next lexeme, or it stops at a
comma. -/
theorem more_noted (hmore : Repeats more item) (hitem : ReadsText item Item)
    (hnotes : Notes item Item) {source before text cs : List Char} {value : β} {values : List β}
    {seen after : Attempts} {rest : List Lexeme} (hsource : before ++ (text ++ cs) = source)
    (hopens : Opens Item before) (htext : Item text value)
    (hseen : seen.offset < nextOffset (lexemesFrom (before ++ text).length cs))
    (h : more (lexemesFrom (before ++ text).length cs) seen = (values, rest, after)) :
    Noted source before.length seen after ∧
      (after.offset < nextOffset rest ∨ ∃ start others, rest = ⟨start, .mark ','⟩ :: others) := by
  -- The induction is on the length of the text, which every comma makes shorter.
  induction hlength : cs.length using Nat.strong_induction_on
    generalizing before text cs value values seen after rest with
  | h length ih =>
      rw [hmore] at h
      rcases hmark : mark ',' () (lexemesFrom (before ++ text).length cs) seen with
        ⟨_ | ⟨_, inner⟩, middle⟩ <;> simp only [hmark] at h
      · -- The repetition ends at something that is no comma.
        obtain rfl := eq_of_mark_eq_none hmark
        cases h
        exact ⟨.inl rfl, .inl hseen⟩
      · obtain ⟨start, hinput⟩ := exists_of_mark hmark
        obtain ⟨-, hafter, spaces, others, rfl, hspaces, rfl⟩ := mark_sound hmark
        rw [hafter, ← List.length_append] at h
        have hopens' := hopens.comma htext hspaces
        rw [nextOffset_spaces hspaces (by decide)] at hseen
        obtain ⟨hle, hseen'⟩ : before.length ≤ (before ++ text ++ (spaces ++ [','])).length ∧
            seen.offset < (before ++ text ++ (spaces ++ [','])).length := by
          simp only [List.length_append, List.length_singleton] at hseen ⊢
          omega
        have hsource' : before ++ text ++ (spaces ++ [',']) ++ others = source := by
          simpa using hsource
        have htracks := hnotes hsource' hopens' hseen'
        rcases hvalue : item (lexemesFrom (before ++ text ++ (spaces ++ [','])).length others) seen
          with ⟨_ | ⟨value', rest'⟩, after'⟩ <;>
          rw [hvalue] at htracks <;> simp only [hvalue] at h
        · -- The item behind the comma is refused, and the repetition ends in front of the comma.
          cases h
          exact ⟨.inr ⟨htracks.1, hle.trans htracks.2⟩, .inr ⟨start, _, hinput⟩⟩
        · -- The item is read, and the rest is a repetition behind it.
          obtain ⟨between, text', others', rfl, hbetween, htext', rfl⟩ := hitem.sound hvalue
          rw [← List.length_append, ← List.append_assoc _ between] at htracks h
          cases hrest : more (lexemesFrom (before ++ text ++ (spaces ++ [',']) ++ between ++
              text').length others') after' with
          | mk values' pair =>
              obtain ⟨rest'', after''⟩ := pair
              simp only [hrest] at h
              cases h
              obtain ⟨hnoted, hend⟩ := ih _ (by subst hlength; simp; omega) (by simpa using hsource)
                (hopens'.append_spaces hbetween) htext' htracks.2 hrest rfl
              exact ⟨(htracks.1.trans hnoted (by simp)).mono hle, hend⟩

/-- A list and its closing bracket carry the record on. -/
theorem list_carried (hmore : Repeats more item) (hitem : ReadsText item Item)
    (hnotes : Notes item Item) {source before cs : List Char} {value : β} {values : List β}
    {seen after after' : Attempts} {rest rest' : List Lexeme} (hsource : before ++ cs = source)
    (hopens : Opens Item before) (hseen : seen.offset < before.length)
    (hfirst : item (lexemesFrom before.length cs) seen = (some (value, rest), after))
    (hrest : more rest after = (values, rest', after')) {γ : Type} {c : Char} (hc : c ≠ ',')
    (result : γ) : Carried source before.length seen (mark c result rest' after') := by
  have htracks := hnotes hsource hopens hseen
  rw [hfirst] at htracks
  obtain ⟨spaces, text, others, rfl, hspaces, htext, rfl⟩ := hitem.sound hfirst
  rw [← List.length_append, ← List.append_assoc _ spaces] at htracks hrest
  obtain ⟨hnoted, hend⟩ := more_noted hmore hitem hnotes (by simpa using hsource)
    (hopens.append_spaces hspaces) htext htracks.2 hrest
  obtain ⟨text', others', rfl, -, rfl⟩ := more_sound hmore hitem hrest
  refine carried_mark (htracks.1.trans hnoted (by simp)) ?_
  intro place others'' hlexemes
  rw [hlexemes] at hend
  rcases hend with hlt | ⟨start', others', hcomma⟩
  · exact hlt.le
  · cases hcomma
    exact absurd rfl hc

end Repetition

/-! ## Arguments -/

theorem single_refused {β : Type} {rule : Rule} {read : Token → Option β} {input : List Lexeme}
    {seen after : Attempts} (h : single rule read input seen = (none, after)) :
    after = seen.refuse rule (nextOffset input) (seen.countAt (nextOffset input)) := by
  cases input with
  | nil =>
      cases h
      rfl
  | cons lexeme rest =>
      simp only [single, attempt] at h
      cases hread : read lexeme.token with
      | none =>
          rw [hread] at h
          cases h
          rfl
      | some value =>
          rw [hread] at h
          cases h

private theorem number_refused {input : List Lexeme} {seen after : Attempts}
    (hseen : seen.offset < nextOffset input) (h : number input seen = (none, after)) :
    after = ⟨nextOffset input, [.number]⟩ := by
  have hclear : seen.Clear (nextOffset input) := .inl hseen
  rw [single_refused h, hclear.countAt, hclear.refuse]

/-- What stands behind the opening bracket of a vector carries the record on. -/
theorem numbers_carried {source before cs : List Char} {seen : Attempts}
    (hsource : before ++ cs = source) (hopens : Opens NumberText before)
    (hseen : seen.offset < before.length) :
    Carried source before.length seen (match number (lexemesFrom before.length cs) seen with
      | (none, after) => mark ']' [] (lexemesFrom before.length cs) after
      | (some (value, rest), after) =>
          let (values, rest, after) := moreNumbers rest after
          mark ']' (value :: values) rest after) := by
  have htracks := notes_number hsource hopens hseen
  cases hfirst : number (lexemesFrom before.length cs) seen with
  | mk first after =>
      rw [hfirst] at htracks
      cases first with
      | none =>
          refine carried_mark (.inr htracks) ?_
          intro place rest hlexemes
          have hlt := hseen.trans_le (le_nextOffset before.length cs)
          rw [number_refused hlt hfirst, hlexemes, nextOffset]
      | some found =>
          obtain ⟨value, rest⟩ := found
          cases hrest : moreNumbers rest after with
          | mk values pair =>
              obtain ⟨rest', after'⟩ := pair
              simp only [hrest]
              exact list_carried repeats_moreNumbers readsText_number notes_number hsource hopens
                hseen hfirst hrest (by decide) _

private theorem vector_settles {source before cs : List Char} {seen : Attempts}
    (hsource : before ++ cs = source) (hopens : Opens ArgumentText before)
    (hseen : seen.offset < before.length) (hcs : Ready cs) :
    Settles source before .vector seen (vector (lexemesFrom before.length cs) seen) := by
  obtain ⟨others, hlexemes⟩ := lexemesFrom_ready hcs before.length
  have hinput : nextOffset (lexemesFrom before.length cs) = before.length := by
    rw [hlexemes, nextOffset]
  refine attempt_settles hsource (hopens.viable argumentText_empty) hinput (.inl hseen) (by decide)
    (Nat.lt_succ_self _) ?_ (not_matches_of_none (matches_vector_iff hcs _ _))
  cases hopen : mark '[' () (lexemesFrom before.length cs) seen with
  | mk opened after =>
      cases opened with
      | none =>
          obtain rfl := eq_of_mark_eq_none hopen
          exact ⟨.inl rfl, by simp⟩
      | some found =>
          obtain ⟨_, inner⟩ := found
          obtain ⟨-, rfl, spaces, others, rfl, hspaces, rfl⟩ := mark_sound hopen
          rw [← List.length_append, ← List.append_assoc]
          obtain ⟨hle, hlt⟩ : before.length + 1 ≤ (before ++ spaces ++ ['[']).length ∧
              after.offset < (before ++ spaces ++ ['[']).length := by
            simp only [List.length_append, List.length_singleton]
            omega
          have hcarried := numbers_carried (by simpa using hsource)
            (hopens.append_spaces hspaces).bracket hlt
          exact hcarried.mono hle

/-- A vector is refused at once if there is no bracket. -/
theorem vector_refused {cs : List Char} (hcs : Ready cs) (hne : Token.next cs ≠ .mark '[')
    {offset : Nat} {seen : Attempts} (hseen : seen.offset < offset) :
    vector (lexemesFrom offset cs) seen = (none, ⟨offset, [.vector]⟩) := by
  have hclear : seen.Clear offset := .inl hseen
  obtain ⟨others, hlexemes⟩ := lexemesFrom_ready hcs offset
  simp only [vector, attempt, hlexemes, nextOffset, mark, if_neg hne, hclear.countAt,
    hclear.refuse]

/-- If the record is behind a bracket already, the alternatives to a vector leave it. -/
theorem refused_at_bracket {cs : List Char} (hcs : Ready cs) (hopen : Token.next cs = .mark '[')
    {offset : Nat} {seen : Attempts} (hseen : offset < seen.offset) :
    number (lexemesFrom offset cs) seen = (none, seen) ∧
      identifier (lexemesFrom offset cs) seen = (none, seen) := by
  obtain ⟨others, hlexemes⟩ := lexemesFrom_ready hcs offset
  rw [hlexemes, hopen]
  simp only [number, identifier, single, attempt, Token.number?, nextOffset, Option.map_none,
    Attempts.refuse_of_lt hseen, and_self]

theorem notes_argument : Notes argument ArgumentText := by
  refine notes_of_ready fun {source before cs seen} hsource hopens hseen hcs => ?_
  have hviable : Viable before := hopens.viable argumentText_empty
  have hclear : seen.Clear before.length := .inl hseen
  obtain ⟨others, hlexemes⟩ := lexemesFrom_ready hcs before.length
  have hinput : nextOffset (lexemesFrom before.length cs) = before.length := by
    rw [hlexemes, nextOffset]
  have hsettles := vector_settles hsource hopens hseen hcs
  unfold argument attempt
  rw [hinput, hclear.countAt]
  cases hvector : vector (lexemesFrom before.length cs) seen with
  | mk reading after =>
      rw [hvector] at hsettles
      simp only [hvector]
      cases hsettles with
      -- A vector was read.
      | taken hnoted hrest => exact ⟨hnoted, hrest⟩
      | whole hreported =>
          -- No vector starts here.  The record names the vector, and the number and the identifier
          -- add themselves to it in turn.
          rcases single_ready (rfl : number = _) rfl hcs before.length
            ⟨before.length, [.vector]⟩ with ⟨value, rest, hlt, hnumber⟩ | hnumber
          · simp only [hnumber]
            exact ⟨.inr ⟨hreported, le_rfl⟩, hlt⟩
          · have hvector' := not_matches_of_none (matches_vector_iff hcs _ _)
              (congrArg Prod.fst hvector)
            have hnumber' := not_matches_of_none (matches_number_iff hcs _ _)
              (congrArg Prod.fst hnumber)
            rw [Attempts.refuse_countAt] at hnumber
            rcases single_ready (rfl : identifier = _) rfl hcs before.length
              ⟨before.length, [.vector] ++ [.number]⟩ with
              ⟨name, rest, hlt, hidentifier⟩ | hidentifier
            · simp only [hnumber, hidentifier]
              refine ⟨.inr ⟨reported_at hsource hviable (by decide) ?_, le_rfl⟩, hlt⟩
              simpa using ⟨hvector', hnumber'⟩
            · have hidentifier' := not_matches_of_none (matches_identifier_iff hcs _ _)
                (congrArg Prod.fst hidentifier)
              -- All three are refused at one place, and the argument replaces them.
              have harg : ¬ Matches .arg cs := by
                rw [matches_arg_iff_or]
                rintro (h | h | h)
                · exact hvector' h
                · exact hnumber' h
                · exact hidentifier' h
              rw [Attempts.refuse_countAt] at hidentifier
              simp only [hnumber, hidentifier]
              rw [Attempts.refuse_of_one_lt (by simp)]
              exact ⟨reported_at hsource hviable (by decide) (by simpa using harg), le_rfl⟩
      | part hreported hlt =>
          -- A vector starts here and breaks off further on.  The other two alternatives are refused
          -- at its bracket, which is not as far.
          have hopen : Token.next cs = .mark '[' := by
            by_contra hne
            rw [vector_refused hcs hne hseen] at hvector
            cases hvector
            exact absurd hlt (lt_irrefl _)
          obtain ⟨hnumber, hidentifier⟩ := refused_at_bracket hcs hopen hlt
          simp only [hnumber, hidentifier]
          rw [Attempts.refuse_of_lt hlt]
          exact ⟨hreported, hlt.le⟩

/-! ## Calls -/

/-- What stands behind the parenthesis of a call carries the record on. -/
theorem arguments_carried {source before cs : List Char} {seen : Attempts} {name : String}
    (hsource : before ++ cs = source) (hopens : Opens ArgumentText before)
    (hseen : seen.offset < before.length) :
    Carried source before.length seen (match argument (lexemesFrom before.length cs) seen with
      | (none, after) => (none, after)
      | (some (arg, rest), after) =>
          let (args, rest, after) := moreArguments rest after
          mark ')' (Call.mk name (arg :: args)) rest after) := by
  have htracks := notes_argument hsource hopens hseen
  cases hfirst : argument (lexemesFrom before.length cs) seen with
  | mk first after =>
      rw [hfirst] at htracks
      cases first with
      | none => exact ⟨.inr htracks, by simp⟩
      | some found =>
          obtain ⟨arg, rest⟩ := found
          cases hrest : moreArguments rest after with
          | mk args pair =>
              obtain ⟨rest', after'⟩ := pair
              simp only [hrest]
              exact list_carried repeats_moreArguments readsText_argument notes_argument hsource
                hopens hseen hfirst hrest (by decide) _

private theorem call_settles {source start cs : List Char} (hsource : start ++ cs = source)
    (hstart : Spaces start) (hcs : Ready cs) :
    (call (lexemesFrom start.length cs) .none = (none, ⟨start.length, [.identifier]⟩) ∧
      Reported source ⟨start.length, [.identifier]⟩) ∨
    Settles source start .call .none (call (lexemesFrom start.length cs) .none) := by
  have hviable := viable_spaces hstart
  have hclear := Attempts.clear_none start.length
  obtain ⟨others, hlexemes⟩ := lexemesFrom_ready hcs start.length
  have hinput : nextOffset (lexemesFrom start.length cs) = start.length := by
    rw [hlexemes, nextOffset]
  rcases single_ready (rfl : identifier = _) rfl hcs start.length .none with
    ⟨name, rest, -, hname⟩ | hname
  · refine .inr (attempt_settles hsource hviable hinput hclear (by decide) (Nat.lt_succ_self _) ?_
      (not_matches_of_none (matches_call_iff _ _)))
    -- There is a name, so that a call begins.  What is left is the bracket behind it.
    simp only [hname]
    obtain ⟨spaces, text, others, rfl, hspaces, ⟨hword, rfl⟩, rfl⟩ :=
      readsText_identifier.sound hname
    rw [← List.length_append, ← List.append_assoc]
    cases hopen : mark '(' () (lexemesFrom (start ++ spaces ++ text).length others) .none with
    | mk opened after =>
        cases opened with
        | none =>
            obtain rfl := eq_of_mark_eq_none hopen
            exact ⟨.inl rfl, by simp⟩
        | some found =>
            obtain ⟨_, inner⟩ := found
            obtain ⟨-, rfl, beforeOpen, others, rfl, hbeforeOpen, rfl⟩ := mark_sound hopen
            rw [← List.length_append]
            have hopens := opens_call (hstart.append hspaces) hword hbeforeOpen
            have hle : start.length + 1 ≤
                (start ++ spaces ++ text ++ (beforeOpen ++ ['('])).length := by
              simp only [List.length_append, List.length_singleton]
              omega
            have hlt : Attempts.none.offset <
                (start ++ spaces ++ text ++ (beforeOpen ++ ['('])).length :=
              (Nat.zero_le _).trans_lt hle
            exact (arguments_carried (by simpa using hsource) hopens hlt).mono hle
  · -- There is no name: the call stands for its one refused part.
    have hidentifier := not_matches_of_none (matches_identifier_iff hcs _ _)
      (congrArg Prod.fst hname)
    refine .inl ⟨?_, reported_at hsource hviable (by decide) (by simpa using hidentifier)⟩
    rw [hclear.countAt, hclear.refuse] at hname
    simp only [call, attempt, hname, hinput, hclear.countAt]
    rw [Attempts.refuse_of_length rfl rfl]

/-! ## Whole texts -/

/-- A report of a rule and its place stays as it is when the whole program is refused. -/
theorem refuse_program {a : Attempts} (ha : 0 < a.offset ∨ a.rules.length = 1) :
    a.refuse .program 0 0 = a := by
  rcases Nat.eq_zero_or_pos a.offset with hzero | hpos
  · exact Attempts.refuse_of_length hzero (ha.resolve_left (by omega))
  · exact Attempts.refuse_of_lt hpos 0

/-- Something other than spaces stands behind a call. -/
theorem finish_reported {source text cs : List Char} {result : Call} {seen after : Attempts}
    (hsource : text ++ cs = source) (htext : CallText text result)
    (hseen : seen.offset < nextOffset (lexemesFrom text.length cs))
    (h : finish (lexemesFrom text.length cs) seen = (none, after)) :
    Reported source after ∧ after.rules = [.finish] := by
  have hclear : seen.Clear (nextOffset (lexemesFrom text.length cs)) := .inl hseen
  rw [single_refused h, hclear.countAt, hclear.refuse]
  obtain ⟨spaces, rest, rfl, hspaces, hrest⟩ := exists_ready cs
  obtain ⟨others, hlexemes⟩ := lexemesFrom_ready hrest (text.length + spaces.length)
  rw [lexemesFrom_spaces hspaces, hlexemes, nextOffset, ← List.length_append]
  have hviable : Viable (text ++ spaces) :=
    ⟨[], result, by simpa using htext.append_spaces hspaces⟩
  refine ⟨reported_at (by simpa using hsource) hviable (by decide) ?_, rfl⟩
  simp only [List.mem_singleton, forall_eq]
  rintro ⟨⟩
  obtain ⟨_, hcomplete⟩ := finish_complete hspaces text.length seen
  rw [List.append_nil, hcomplete] at h
  cases h

private theorem program_reported {source : List Char} {after : Attempts}
    (h : program (lexemes source) = (none, after)) : Reported source after := by
  obtain ⟨start, cs, hsource, hstart, hcs⟩ := exists_ready source
  have hlexemes : lexemes source = lexemesFrom start.length cs := by
    rw [lexemes, hsource, lexemesFrom_spaces hstart, Nat.zero_add]
  -- Whatever part of the program was refused, the program adds nothing to it.
  suffices hpart : ∃ seen, after = seen.refuse .program 0 0 ∧ Reported source seen ∧
      (0 < seen.offset ∨ seen.rules.length = 1) by
    obtain ⟨seen, rfl, hreported, hseen⟩ := hpart
    rwa [refuse_program hseen]
  unfold program at h
  cases hcall : call (lexemes source) .none with
  | mk reading seen =>
      have hsettles := call_settles hsource.symm hstart hcs
      rw [← hlexemes, hcall] at hsettles
      rw [hcall] at h
      rcases hsettles with ⟨hname, hreported⟩ | hsettles
      · cases hname
        cases h
        exact ⟨_, rfl, hreported, .inr rfl⟩
      · cases hsettles with
        | whole hreported =>
            cases h
            exact ⟨_, rfl, hreported, .inr rfl⟩
        | part hreported hlt =>
            cases h
            exact ⟨_, rfl, hreported, .inl ((Nat.zero_le _).trans_lt hlt)⟩
        | @taken result rest _ hnoted hrest =>
            obtain ⟨text, others, rfl, htext, rfl⟩ := call_sound hcall
            rw [Nat.zero_add] at hrest h
            simp only at h
            rcases hfinish : finish (lexemesFrom text.length others) seen with
              ⟨_ | ⟨_, stop⟩, seen'⟩ <;> simp only [hfinish] at h
            · -- The call was read, so that the end of the text is what is missing.
              cases h
              obtain ⟨hreported, hrules⟩ := finish_reported rfl htext hrest hfinish
              exact ⟨_, rfl, hreported, .inr (by rw [hrules]; rfl)⟩
            · cases h

/-- A report names its rules without repetition and in order. -/
theorem expected_of_mem_reports {a : Attempts} (ha : a.rules ∈ reports) : a.expected = a.rules := by
  have hall : ∀ rules ∈ reports, Rule.all.filter (· ∈ rules) = rules := by decide
  exact hall a.rules ha

/-- A refusal says where a text stops being the front of a call and what is missing there.  The
place is between two characters of the text.  What stands before it can be completed to a call, the
rules are one of the lists of `reports`, and none of them matches at the place. -/
theorem refusal_points_at_failure (source : String) (refusal : Refusal)
    (h : parse source = .error refusal) :
    refusal.offset ≤ source.toList.length ∧
    (String.ofList (source.toList.take refusal.offset)).rawEndPos.IsValid source ∧
    (∃ tail call,
      parse (String.ofList (source.toList.take refusal.offset ++ tail)) = .ok call) ∧
    refusal.expected ∈ reports ∧
    ∀ rule ∈ refusal.expected, ¬ Matches rule (source.toList.drop refusal.offset) := by
  obtain ⟨after, hprogram, rfl⟩ : ∃ after, program (lexemes source.toList) = (none, after) ∧
      refusal = ⟨source.toList, after.offset, after.expected⟩ := by
    unfold parse at h
    rcases hprogram : program (lexemes source.toList) with ⟨_ | call, after⟩ <;>
      simp only [hprogram] at h
    · cases h
      exact ⟨after, rfl, rfl⟩
    · cases h
  have hreported := program_reported hprogram
  rw [expected_of_mem_reports hreported.listed]
  refine ⟨hreported.within, ?_, ?_, hreported.listed, hreported.refused⟩
  · refine String.Pos.Raw.isValid_iff_exists_append.mpr
      ⟨_, String.ofList (source.toList.drop after.offset), ?_, rfl⟩
    rw [← String.ofList_append, List.take_append_drop, String.ofList_toList]
  · obtain ⟨tail, result, htext⟩ := hreported.viable
    refine ⟨tail, result, parse_eq_ok_iff.mpr ?_⟩
    rwa [String.toList_ofList]

theorem refusal_after_comma :
    parse "f([1,]" = .error ⟨"f([1,]".toList, 5, [.number]⟩ ∧
    (∃ tail call, parse (String.ofList ("f([1,".toList ++ tail)) = .ok call) ∧
    ¬ Matches .number "]".toList := by
  have h : parse "f([1,]" = .error ⟨"f([1,]".toList, 5, [.number]⟩ := by decide +kernel
  obtain ⟨-, -, hviable, -, hrefused⟩ := refusal_points_at_failure _ _ h
  exact ⟨h, hviable, hrefused .number (by decide)⟩

end Call

end PNorm
