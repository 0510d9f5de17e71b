import PNorm.Proofs.Json.Passing

/-!
# A text says one thing

The grammar of JSON is unambiguous: a text is written for one value at most
(`ValueText.unique`).  Where a part of a text ends is settled by the readers,
which leave the same rest however the part is taken to be written; so it only
remains to compare the parts.

The first character of a value tells its shape (`ValueText.alike`), and values of one
shape are compared by what they are made of.  For lists this is one argument for the
items of a list and the members of a record (`Enclosed.unique`).  It asks that two
items at the front of one text are the same (`Cuts`), and that an item begins neither
with a space nor with what closes the list (`Begins`).
-/

namespace PNorm.Json

open Grammar (Spaces Digits ListText MoreText)

/-! ## Strings -/

theorem HexDigit.unique {c : Char} {n n' : Nat} (h : HexDigit c n) (h' : HexDigit c n') :
    n = n' :=
  Option.some.inj ((hexDigit?_of_hexDigit h).symm.trans (hexDigit?_of_hexDigit h'))

theorem PieceText.unique {text text' rest rest' : List Char} {piece piece' : Piece}
    (h : PieceText text piece) (h' : PieceText text' piece') (heq : text ++ rest = text' ++ rest') :
    piece = piece' ∧ rest = rest' := by
  cases h with
  | plain _ _ hbackslash =>
      cases h' with
      | plain => simpa using heq
      | _ => exact absurd (List.cons.inj heq).1 hbackslash
  | short hescape =>
      cases h' with
      | plain _ _ hbackslash => exact absurd (List.cons.inj heq).1.symm hbackslash
      | short hescape' =>
          simp only [List.cons_append, List.nil_append, List.cons.injEq, true_and] at heq
          obtain ⟨rfl, rfl⟩ := heq
          have hvalue := (escaped?_of_mem hescape).symm.trans (escaped?_of_mem hescape')
          exact ⟨congrArg _ (Option.some.inj hvalue), rfl⟩
      | unit =>
          simp only [List.cons_append, List.nil_append, List.cons.injEq, true_and] at heq
          exact absurd heq.1 (ne_unit_of_mem hescape)
  | unit h₃ h₂ h₁ h₀ =>
      cases h' with
      | plain _ _ hbackslash => exact absurd (List.cons.inj heq).1.symm hbackslash
      | short hescape' =>
          simp only [List.cons_append, List.nil_append, List.cons.injEq, true_and] at heq
          exact absurd heq.1.symm (ne_unit_of_mem hescape')
      | unit h₃' h₂' h₁' h₀' =>
          simp only [List.cons_append, List.nil_append, List.cons.injEq, true_and] at heq
          obtain ⟨rfl, rfl, rfl, rfl, rfl⟩ := heq
          rw [h₃.unique h₃', h₂.unique h₂', h₁.unique h₁', h₀.unique h₀']
          exact ⟨rfl, rfl⟩

theorem PieceText.ne_nil {text : List Char} {piece : Piece} (h : PieceText text piece) :
    text ≠ [] := by
  cases h <;> exact List.cons_ne_nil _ _

theorem ContentText.unique {text : List Char} {pieces pieces' : List Piece}
    (h : ContentText text pieces) (h' : ContentText text pieces') : pieces = pieces' := by
  induction h generalizing pieces' with
  | nil =>
      generalize htext : [] = text at h'
      cases h' with
      | nil => rfl
      | cons hpiece => exact absurd (List.append_eq_nil_iff.mp htext.symm).1 hpiece.ne_nil
  | @cons piece rest _ _ hpiece hrest ih =>
      generalize htext : piece ++ rest = text at h'
      cases h' with
      | nil => exact absurd (List.append_eq_nil_iff.mp htext).1 hpiece.ne_nil
      | cons hpiece' hrest' =>
          obtain ⟨rfl, rfl⟩ := hpiece.unique hpiece' htext
          rw [ih hrest']

/-- Two strings at the front of a text are the same. -/
theorem StringText.unique {text text' rest rest' : List Char} {pieces pieces' : List Piece}
    (h : StringText text pieces) (h' : StringText text' pieces')
    (heq : text ++ rest = text' ++ rest') : pieces = pieces' ∧ rest = rest' := by
  obtain @⟨content, _, hcontent⟩ := h
  obtain @⟨content', _, hcontent'⟩ := h'
  simp only [List.cons_append, List.append_assoc, List.nil_append, List.cons.injEq, true_and] at heq
  -- Passing over either string leaves what is behind it, so both end in the same place.
  have hrest : rest = rest' := by
    have hskip := skipString_content hcontent rest
    rw [heq, skipString_content hcontent'] at hskip
    exact (Except.ok.inj hskip).symm
  subst hrest
  have hsame := List.append_cancel_right heq
  subst hsame
  exact ⟨hcontent.unique hcontent', rfl⟩

/-! ## Items in brackets -/

/-- Two items at the front of a text are the same, if something follows that can follow a value. -/
def Cuts {β : Type} (Item Item' : List Char → β → Prop) : Prop :=
  ∀ text text' rest rest' value value', Item text value → Item' text' value' →
    text ++ rest = text' ++ rest' → Closes rest → Closes rest' → value = value' ∧ rest = rest'

/-- An item starts with a character that is neither a space nor the closing bracket. -/
def Begins {β : Type} (Item : List Char → β → Prop) (closing : Char) : Prop :=
  ∀ text value, Item text value →
    ∃ c tail, text = c :: tail ∧ Text.isSpace c = false ∧ c ≠ closing

section Items

variable {β : Type} {Item Item' : List Char → β → Prop} {opening closing : Char}
  {text text' after after' : List Char} {values values' : List β}

theorem Begins.skipSpaces {value : β} (hbegins : Begins Item closing) (hitem : Item text value)
    (rest : List Char) : skipSpaces (text ++ rest) = text ++ rest := by
  obtain ⟨c, tail, rfl, hc, -⟩ := hbegins _ _ hitem
  exact skipSpaces_cons hc _

/-- Brackets with nothing between them do not start with an item. -/
theorem Begins.not_empty {spaces before item rest : List Char} {value : β}
    (hbegins : Begins Item closing) (hclosing : Text.isSpace closing = false)
    (hspaces : Spaces spaces) (hbefore : Spaces before) (hitem : Item item value) :
    spaces ++ [closing] ≠ before ++ (item ++ rest) := by
  intro heq
  have hskip := congrArg Json.skipSpaces heq
  rw [skipSpaces_append hspaces, skipSpaces_cons hclosing, skipSpaces_append hbefore,
    hbegins.skipSpaces hitem] at hskip
  obtain ⟨c, tail, rfl, -, hc⟩ := hbegins _ _ hitem
  exact hc (List.cons.inj hskip).1.symm

variable (hcuts : Cuts Item Item') (hbegins : Begins Item closing)
  (hbegins' : Begins Item' closing) (hspace : Text.isSpace closing = false) (hcomma : closing ≠ ',')
  (hcloses : closesValue closing)

include hcuts hbegins hbegins' hspace hcomma hcloses

theorem more_unique (hmore : MoreText Item text values) (hmore' : MoreText Item' text' values')
    (hafter : Spaces after) (hafter' : Spaces after')
    (heq : text ++ (after ++ [closing]) = text' ++ (after' ++ [closing])) : values = values' := by
  induction hmore generalizing text' values' with
  | nil =>
      cases hmore' with
      | nil => rfl
      | cons hbefore' =>
          -- One text is closed where the other one goes on with a comma.
          have hskip := congrArg skipSpaces heq
          rw [List.nil_append, skipSpaces_append hafter, skipSpaces_cons hspace, List.append_assoc,
            skipSpaces_append hbefore', List.cons_append, skipSpaces_cons (by decide)] at hskip
          exact absurd (List.cons.inj hskip).1 hcomma
  | cons hbefore hgap hitem hmore ih =>
      cases hmore' with
      | nil =>
          have hskip := congrArg skipSpaces heq
          rw [List.nil_append, skipSpaces_append hafter', skipSpaces_cons hspace, List.append_assoc,
            skipSpaces_append hbefore, List.cons_append, skipSpaces_cons (by decide)] at hskip
          exact absurd (List.cons.inj hskip).1.symm hcomma
      | cons hbefore' hgap' hitem' hmore' =>
          have hskip := congrArg skipSpaces heq
          simp only [List.append_assoc, List.cons_append] at hskip
          rw [skipSpaces_append hbefore, skipSpaces_cons (by decide), skipSpaces_append hbefore',
            skipSpaces_cons (by decide)] at hskip
          have hitems := congrArg skipSpaces (List.cons.inj hskip).2
          rw [skipSpaces_append hgap, hbegins.skipSpaces hitem, skipSpaces_append hgap',
            hbegins'.skipSpaces hitem'] at hitems
          obtain ⟨rfl, hrest⟩ := hcuts _ _ _ _ _ _ hitem hitem' hitems
            (closes_behind hmore hafter hcloses []) (closes_behind hmore' hafter' hcloses [])
          rw [ih hmore' hrest]

theorem Enclosed.unique (hitems : Enclosed Item opening closing text values)
    (hitems' : Enclosed Item' opening closing text values') : values = values' := by
  generalize htext : text = text' at hitems'
  cases hitems with
  | empty hspaces =>
      cases hitems' with
      | empty => rfl
      | items hbefore' hlist' =>
          obtain ⟨hitem', -⟩ := hlist'
          rw [List.append_assoc, List.cons.injEq] at htext
          exact absurd htext.2 (hbegins'.not_empty hspace hspaces hbefore' hitem')
  | items hbefore hlist hafter =>
      obtain ⟨hitem, hmore⟩ := hlist
      cases hitems' with
      | empty hspaces' =>
          rw [List.append_assoc, List.cons.injEq] at htext
          exact absurd htext.2.symm (hbegins.not_empty hspace hspaces' hbefore hitem)
      | items hbefore' hlist' hafter' =>
          obtain ⟨hitem', hmore'⟩ := hlist'
          have hskip := congrArg skipSpaces (List.cons.inj htext).2
          simp only [List.append_assoc] at hskip
          rw [skipSpaces_append hbefore, hbegins.skipSpaces hitem, skipSpaces_append hbefore',
            hbegins'.skipSpaces hitem'] at hskip
          obtain ⟨rfl, hrest⟩ := hcuts _ _ _ _ _ _ hitem hitem' hskip
            (closes_behind hmore hafter hcloses []) (closes_behind hmore' hafter' hcloses [])
          rw [more_unique hcuts hbegins hbegins' hspace hcomma hcloses hmore hmore' hafter hafter'
            hrest]

end Items

/-! ## Values -/

/-- Two values of the same sort. -/
inductive Alike : Value → Value → Prop
  | null : Alike .null .null
  | bool (value : Bool) : Alike (.bool value) (.bool value)
  | number (negative : Bool) {text text' : List Char} :
      Alike (.number negative text) (.number negative text')
  | string {pieces pieces' : List Piece} : Alike (.string pieces) (.string pieces')
  | list {items items' : List Value} : Alike (.list items) (.list items')
  | record {members members' : List (List Piece × Value)} :
      Alike (.record members) (.record members')

/-- The character that a value starts with, if it is not a digit. -/
def mark : Value → Option Char
  | .null => some 'n'
  | .bool true => some 't'
  | .bool false => some 'f'
  | .number true _ => some '-'
  | .number false _ => none
  | .string _ => some '"'
  | .list _ => some '['
  | .record _ => some '\x7b'

theorem Opens.mark_eq {value : Value} {c : Char} (h : Opens value c) :
    mark value = if c.isDigit then none else some c := by
  cases h with
  | positive hc => rw [if_pos hc, mark]
  | bool value => cases value <;> rfl
  | _ => rfl

private theorem alike_of_mark {value value' : Value} (h : mark value = mark value') :
    Alike value value' := by
  rcases value with _ | (_ | _) | ⟨_ | _, _⟩ | _ | _ | _ <;>
    rcases value' with _ | (_ | _) | ⟨_ | _, _⟩ | _ | _ | _ <;>
    first
    | constructor
    | simp [mark] at h

/-- Members at the front of a text are the same if their values are. -/
theorem cuts_member {Item Item' : List Char → Value → Prop} (hcuts : Cuts Item Item')
    (hbegins : Begins Item ']') (hbegins' : Begins Item' ']') :
    Cuts (MemberText Item) (MemberText Item') := by
  rintro _ _ rest rest' _ _ ⟨hname, hcolon, hgap, hvalue⟩ ⟨hname', hcolon', hgap', hvalue'⟩ heq
    hrest hrest'
  simp only [List.append_assoc, List.cons_append] at heq
  obtain ⟨rfl, hbehind⟩ := hname.unique hname' heq
  have hskip := congrArg skipSpaces hbehind
  rw [skipSpaces_append hcolon, skipSpaces_append hcolon', skipSpaces_cons (by decide),
    skipSpaces_cons (by decide)] at hskip
  have hvalues := congrArg skipSpaces (List.cons.inj hskip).2
  rw [skipSpaces_append hgap, skipSpaces_append hgap', hbegins.skipSpaces hvalue,
    hbegins'.skipSpaces hvalue'] at hvalues
  obtain ⟨rfl, rfl⟩ := hcuts _ _ _ _ _ _ hvalue hvalue' hvalues hrest hrest'
  exact ⟨rfl, rfl⟩

/-- A value that is the only one of its text. -/
def OnlyValue (text : List Char) (value : Value) : Prop :=
  ValueText text value ∧ ∀ value', ValueText text value' → value = value'

theorem cuts_value : Cuts OnlyValue ValueText := by
  rintro text text' rest rest' value value' ⟨hvalue, honly⟩ hvalue' heq hrest hrest'
  have hskip := skipValue_append Grammar.spaces_nil hvalue hrest
  rw [List.nil_append, heq] at hskip
  have hskip' := skipValue_append Grammar.spaces_nil hvalue' hrest'
  rw [List.nil_append, hskip] at hskip'
  obtain rfl := Except.ok.inj hskip'
  obtain rfl := List.append_cancel_right heq
  exact ⟨honly _ hvalue', rfl⟩

theorem begins_value : Begins ValueText ']' := by
  intro text value hvalue
  obtain ⟨c, tail, rfl, hopens⟩ := hvalue.head
  exact ⟨c, tail, rfl, hopens.not_space⟩

theorem begins_member (Item : List Char → Value → Prop) : Begins (MemberText Item) '}' := by
  rintro _ _ ⟨hname⟩
  obtain ⟨inner, rfl⟩ := hname.head
  exact ⟨'"', _, rfl, by decide, by decide⟩

/-- The first character of a text tells the sort of its value. -/
theorem Opens.alike {c : Char} {tail : List Char} {value value' : Value} (h : Opens value c)
    (h' : ValueText (c :: tail) value') : Alike value value' := by
  obtain ⟨_, _, heq, hopens'⟩ := h'.head
  cases heq
  exact alike_of_mark (h.mark_eq.trans hopens'.mark_eq.symm)

theorem ValueText.alike {text : List Char} {value value' : Value} (h : ValueText text value)
    (h' : ValueText text value') : Alike value value' := by
  obtain ⟨c, tail, rfl, hopens⟩ := h.head
  exact hopens.alike h'

theorem writeSign_injective (negative : Bool) : Function.Injective (writeSign negative) := by
  cases negative with
  | false => exact fun _ _ h => h
  | true => exact fun _ _ h => (List.cons.inj h).2

/-- **A text is written for one value at most.** -/
theorem ValueText.unique {text : List Char} {value value' : Value} (h : ValueText text value)
    (h' : ValueText text value') : value = value' := by
  have honly : Begins OnlyValue ']' := fun text value hvalue => begins_value text value hvalue.1
  refine ValueText.induct (motive := fun text value => ∀ value', ValueText text value' →
    value = value') ?null ?bool ?number ?string ?list ?record h value' h'
  case null =>
    intro value' h'
    cases ValueText.null.alike h' with
    | null => rfl
  case bool =>
    intro value value' h'
    cases (ValueText.bool value).alike h' with
    | bool => rfl
  case number =>
    intro negative text hmagnitude value' h'
    cases (ValueText.number negative hmagnitude).alike h' with
    | @number _ _ text' =>
        generalize htext : writeSign negative text = whole at h'
        cases h' with
        | number => rw [writeSign_injective negative htext]
  case string =>
    intro text pieces hstring value' h'
    cases (ValueText.string hstring).alike h' with
    | string =>
        cases h' with
        | string hstring' => rw [(hstring.unique hstring' (rfl : text ++ [] = text ++ [])).1]
  case list =>
    intro text items hitems value' h'
    obtain ⟨inner, htext⟩ := hitems.head
    -- The bracket comes first: that `items` are written in `text` is only known by induction here,
    -- so `ValueText.alike` does not apply.
    have halike : Alike (.list items) value' := by
      rw [htext] at h'
      exact Opens.list.alike h'
    cases halike with
    | list =>
        cases h' with
        | list hitems' =>
            rw [hitems.unique cuts_value honly begins_value (by decide) (by decide) (by decide)
              hitems']
  case record =>
    intro text members hmembers value' h'
    obtain ⟨inner, htext⟩ := hmembers.head
    have halike : Alike (.record members) value' := by
      rw [htext] at h'
      exact Opens.record.alike h'
    cases halike with
    | record =>
        cases h' with
        | record hmembers' =>
            rw [hmembers.unique (cuts_member cuts_value honly begins_value) (begins_member _)
              (begins_member _) (by decide) (by decide) (by decide) hmembers']

/-- **A document has one list of members at most.** -/
theorem ObjectText.unique {text : List Char} {members members' : List (List Piece × Value)}
    (h : ObjectText text members) (h' : ObjectText text members') : members = members' := by
  obtain @⟨before, object, after, _, hbefore, hmembers, hafter⟩ := h
  generalize htext : before ++ (object ++ after) = text at h'
  obtain @⟨before', object', after', _, hbefore', hmembers', hafter'⟩ := h'
  have hvalue := ValueText.record hmembers
  have hvalue' := ValueText.record hmembers'
  have hskip := congrArg skipSpaces htext
  rw [skipSpaces_append hbefore, skipSpaces_append hbefore', skipSpaces_value hvalue,
    skipSpaces_value hvalue'] at hskip
  have hcloses : ∀ {spaces}, Spaces spaces → Closes spaces := fun hspaces => by
    simpa using Closes.spaces_append hspaces closes_nil
  obtain ⟨heq, -⟩ := cuts_value _ _ _ _ _ _ ⟨hvalue, fun _ => hvalue.unique⟩ hvalue' hskip
    (hcloses hafter) (hcloses hafter')
  exact Value.record.inj heq

end PNorm.Json
