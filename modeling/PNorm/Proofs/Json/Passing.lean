import PNorm.Proofs.Json.Scanning

/-!
# Values are passed over whole

A value that nobody wants is passed over by a machine with a stack of open
brackets.  Set on any text of the grammar, and with any stack, the machine comes
out right behind that text with the stack as it was (`skipFrom_value`): however
deep the value goes, what stands behind it is read as if it were not there.

The statement is about all stacks and all rests at once (`Passed`), so that it can be
used for the values inside a value: there the stack has one bracket more, and the
rest begins with what follows the inner value.  The induction is on how a value is
written (`ValueText.induct`), and inside a list or a record a second one goes through
the items.
-/

namespace PNorm.Json

open Grammar (Spaces Digits Power ListText MoreText EndsNumber)

/-! ## Single steps of the machine -/

section Machine

variable {stack : List Frame} {cs inner rest : List Char}

/-- A pair of brackets with nothing in it is passed over at once. -/
theorem skipFrom_empty {opening closing : Char}
    (hmarks : opening = '[' ∧ closing = ']' ∨ opening = '{' ∧ closing = '}')
    (hopen : skipSpaces cs = opening :: inner) (hclose : skipSpaces inner = closing :: rest) :
    skipFrom .beforeValue stack cs = skipFrom .afterValue stack rest := by
  rw [skipFrom]
  generalize skipSpaces cs = text at hopen ⊢
  subst hopen
  rcases hmarks with ⟨rfl, rfl⟩ | ⟨rfl, rfl⟩ <;> simp only <;>
    generalize skipSpaces inner = behind at hclose ⊢ <;> subst hclose <;> rfl

theorem skipFrom_list (hopen : skipSpaces cs = '[' :: inner)
    (hclose : ∀ c ∈ (skipSpaces inner).head?, c ≠ ']') :
    skipFrom .beforeValue stack cs = skipFrom .beforeValue (.list :: stack) (skipSpaces inner) := by
  conv_lhs => rw [skipFrom]
  generalize skipSpaces cs = text at hopen ⊢
  subst hopen
  simp only
  generalize skipSpaces inner = item at hclose ⊢
  cases item with
  | nil => rfl
  | cons c tail => simp [hclose c (by simp)]

theorem skipFrom_record (hopen : skipSpaces cs = '{' :: inner)
    (hclose : ∀ c ∈ (skipSpaces inner).head?, c ≠ '}')
    (hname : skipName (skipSpaces inner) = .ok rest) :
    skipFrom .beforeValue stack cs = skipFrom .beforeValue (.record :: stack) rest := by
  conv_lhs => rw [skipFrom]
  generalize skipSpaces cs = text at hopen ⊢
  subst hopen
  simp only
  generalize skipSpaces inner = member at hclose hname ⊢
  cases member with
  | nil => cases hname
  | cons c tail =>
      have hne : ∀ behind, c :: tail = '}' :: behind → False := by
        rintro behind ⟨⟩
        exact hclose '}' rfl rfl
      simp only
      generalize skipName (c :: tail) = read at hname ⊢
      subst hname
      rfl

theorem skipFrom_scalar {c : Char} (hspaces : skipSpaces cs = c :: inner) (hlist : c ≠ '[')
    (hrecord : c ≠ '{') (hscalar : skipScalar c inner = .ok rest) :
    skipFrom .beforeValue stack cs = skipFrom .afterValue stack rest := by
  conv_lhs => rw [skipFrom]
  generalize skipSpaces cs = text at hspaces ⊢
  subst hspaces
  simp only
  generalize skipScalar c inner = read at hscalar ⊢
  subst hscalar
  rfl

private theorem skipFrom_nextItem (hcomma : skipSpaces cs = ',' :: rest) :
    skipFrom .afterValue (.list :: stack) cs = skipFrom .beforeValue (.list :: stack) rest := by
  conv_lhs => rw [skipFrom]
  generalize skipSpaces cs = text at hcomma ⊢
  subst hcomma
  rfl

private theorem skipFrom_nextMember (hcomma : skipSpaces cs = ',' :: inner)
    (hname : skipName (skipSpaces inner) = .ok rest) :
    skipFrom .afterValue (.record :: stack) cs = skipFrom .beforeValue (.record :: stack) rest := by
  conv_lhs => rw [skipFrom]
  generalize skipSpaces cs = text at hcomma ⊢
  subst hcomma
  simp only
  generalize skipName (skipSpaces inner) = read at hname ⊢
  subst hname
  rfl

/-- The bracket that closes the innermost list or record is passed over. -/
theorem skipFrom_close {frame : Frame} {closing : Char}
    (hmark : frame = .list ∧ closing = ']' ∨ frame = .record ∧ closing = '}')
    (hclose : skipSpaces cs = closing :: rest) :
    skipFrom .afterValue (frame :: stack) cs = skipFrom .afterValue stack rest := by
  rcases hmark with ⟨rfl, rfl⟩ | ⟨rfl, rfl⟩ <;> rw [skipFrom] <;>
    generalize skipSpaces cs = text at hclose ⊢ <;> subst hclose <;> rfl

end Machine

/-! ## What values start with -/

private theorem isSpace_of_isDigit {c : Char} (hc : c.isDigit) : Text.isSpace c = false := by
  by_contra hspace
  simp only [Text.isSpace, Bool.not_eq_false, Bool.or_eq_true, beq_iff_eq] at hspace
  rcases hspace with ((rfl | rfl) | rfl) | rfl <;> exact absurd hc (by decide)

theorem Whole.all_digits {whole : List Char} (hwhole : Whole whole) : Digits whole := by
  cases hwhole with
  | zero => simp [Digits]
  | digits hc _ hrest =>
      intro d hd
      rcases List.mem_cons.mp hd with rfl | hd
      · exact hc
      · exact hrest d hd

theorem Magnitude.head {text : List Char} (hmagnitude : Magnitude text) :
    ∃ c tail, text = c :: tail ∧ c.isDigit := by
  cases hmagnitude with
  | mk hwhole =>
      cases hwhole with
      | zero => exact ⟨_, _, rfl, by decide⟩
      | digits hc => exact ⟨_, _, rfl, hc⟩

theorem Enclosed.head {β : Type} {Item : List Char → β → Prop} {opening closing : Char}
    {text : List Char} {values : List β} (hitems : Enclosed Item opening closing text values) :
    ∃ inner, text = opening :: inner := by
  cases hitems <;> exact ⟨_, rfl⟩

/-- The characters that a value can start with. -/
inductive Opens : Value → Char → Prop
  | null : Opens .null 'n'
  | bool (value : Bool) : Opens (.bool value) (if value then 't' else 'f')
  | negative {magnitude : List Char} : Opens (.number true magnitude) '-'
  | positive {magnitude : List Char} {c : Char} (hc : c.isDigit) :
      Opens (.number false magnitude) c
  | string {pieces : List Piece} : Opens (.string pieces) '"'
  | list {items : List Value} : Opens (.list items) '['
  | record {members : List (List Piece × Value)} : Opens (.record members) '{'

theorem ValueText.head {text : List Char} {value : Value} (hvalue : ValueText text value) :
    ∃ c tail, text = c :: tail ∧ Opens value c := by
  cases hvalue with
  | null => exact ⟨_, _, rfl, .null⟩
  | bool value =>
      cases value with
      | true => exact ⟨_, _, rfl, .bool true⟩
      | false => exact ⟨_, _, rfl, .bool false⟩
  | number negative hmagnitude =>
      obtain ⟨c, tail, rfl, hc⟩ := hmagnitude.head
      cases negative with
      | true => exact ⟨_, _, rfl, .negative⟩
      | false => exact ⟨_, _, rfl, .positive hc⟩
  | string hstring =>
      cases hstring
      exact ⟨_, _, rfl, .string⟩
  | list hitems =>
      obtain ⟨inner, rfl⟩ := hitems.head
      exact ⟨_, _, rfl, .list⟩
  | record hmembers =>
      obtain ⟨inner, rfl⟩ := hmembers.head
      exact ⟨_, _, rfl, .record⟩

/-- A value starts neither with a space nor with a closing bracket. -/
theorem Opens.not_space {value : Value} {c : Char} (hopens : Opens value c) :
    Text.isSpace c = false ∧ c ≠ ']' := by
  cases hopens with
  | positive hc =>
      refine ⟨isSpace_of_isDigit hc, ?_⟩
      rintro rfl
      exact absurd hc (by decide)
  | bool value => cases value <;> decide
  | _ => decide

theorem skipSpaces_value {text : List Char} {value : Value} (hvalue : ValueText text value)
    (rest : List Char) : skipSpaces (text ++ rest) = text ++ rest := by
  obtain ⟨c, tail, rfl, hopens⟩ := hvalue.head
  exact skipSpaces_cons hopens.not_space.1 _

theorem StringText.head {text : List Char} {pieces : List Piece}
    (hstring : StringText text pieces) : ∃ tail, text = '"' :: tail := by
  cases hstring
  exact ⟨_, rfl⟩

theorem skipSpaces_string {text : List Char} {pieces : List Piece}
    (hstring : StringText text pieces) (rest : List Char) :
    skipSpaces (text ++ rest) = text ++ rest := by
  obtain ⟨tail, rfl⟩ := hstring.head
  exact skipSpaces_cons (by decide) _

/-- What follows an item of a list or a record can follow a value. -/
theorem closes_more {β : Type} {Item : List Char → β → Prop} {more rest : List Char}
    {values : List β} (hmore : MoreText Item more values) (hrest : Closes rest) :
    Closes (more ++ rest) := by
  cases hmore with
  | nil => exact hrest
  | cons hbefore =>
      rw [List.append_assoc]
      exact Closes.spaces_append hbefore (closes_cons (by decide))

/-- What follows an item is more items or the closing bracket, and either can follow a value. -/
theorem closes_behind {β : Type} {Item : List Char → β → Prop} {more after : List Char}
    {values : List β} {closing : Char} (hmore : MoreText Item more values) (hafter : Spaces after)
    (hclosing : closesValue closing) (rest : List Char) :
    Closes (more ++ (after ++ closing :: rest)) :=
  closes_more hmore (Closes.spaces_append hafter (closes_cons hclosing))

/-! ## Values without parts -/

private theorem skipScalar_number (negative : Bool) {text : List Char} (hmagnitude : Magnitude text)
    {rest : List Char} (hrest : Closes rest) : ∃ c inner,
      writeSign negative text ++ rest = c :: inner ∧ c ≠ '[' ∧ c ≠ '{' ∧
        skipScalar c inner = .ok rest := by
  have htake := takeNumber_append .malformed hmagnitude hrest.endsNumber
  cases negative with
  | true => exact ⟨'-', text ++ rest, rfl, by decide, by decide, htake⟩
  | false =>
      obtain ⟨c, tail, rfl, hc⟩ := hmagnitude.head
      have hne : ∀ d, d.isDigit = false → c ≠ d := by
        rintro d hd rfl
        exact absurd hc (by simp [hd])
      refine ⟨c, tail ++ rest, rfl, hne _ (by decide), hne _ (by decide), ?_⟩
      rw [skipScalar, if_neg (hne _ (by decide)), if_neg (hne _ (by decide)),
        if_neg (hne _ (by decide)), if_neg (hne _ (by decide)), if_neg (hne _ (by decide))]
      exact htake

theorem skipName_append {name before : List Char} {pieces : List Piece}
    (hname : StringText name pieces) (hbefore : Spaces before) (rest : List Char) :
    skipName (name ++ (before ++ ':' :: rest)) = .ok rest := by
  cases hname with
  | mk hcontent =>
      simp only [List.cons_append, List.append_assoc, List.nil_append, skipName, if_true,
        skipString_content hcontent, takeColon_append hbefore]

/-! ## Values with parts -/

/-- `text` is passed over, wherever it stands. -/
def Passed (text : List Char) : Prop :=
  ∀ stack cs rest, skipSpaces cs = text ++ rest → Closes rest →
    skipFrom .beforeValue stack cs = skipFrom .afterValue stack rest

theorem passed_scalar {c : Char} {inner : List Char} (hlist : c ≠ '[') (hrecord : c ≠ '{')
    (hscalar : ∀ rest, skipScalar c (inner ++ rest) = .ok rest) : Passed (c :: inner) :=
  fun _ _ _ hcs _ => skipFrom_scalar hcs hlist hrecord (hscalar _)

private theorem passed_number (negative : Bool) {text : List Char} (hmagnitude : Magnitude text) :
    Passed (writeSign negative text) := by
  intro stack cs rest hcs hrest
  obtain ⟨c, inner, heq, hlist, hrecord, hscalar⟩ :=
    skipScalar_number negative hmagnitude hrest
  exact skipFrom_scalar (hcs.trans heq) hlist hrecord hscalar

/-- A value that is passed over. -/
def PassedValue (text : List Char) (value : Value) : Prop :=
  ValueText text value ∧ Passed text

section Parts

variable {stack : List Frame} {text after rest : List Char}

/-! ### Lists -/

private theorem skipFrom_moreItems {items : List Value} (hitems : MoreText PassedValue text items)
    (hafter : Spaces after) :
    skipFrom .afterValue (.list :: stack) (text ++ (after ++ ']' :: rest)) =
      skipFrom .afterValue stack rest := by
  induction hitems with
  | nil =>
      refine skipFrom_close (.inl ⟨rfl, rfl⟩) ?_
      rw [List.nil_append, skipSpaces_append hafter, skipSpaces_cons (by decide)]
  | @cons before gap item more _ _ hbefore hgap hitem hmore ih =>
      obtain ⟨hvalue, hpassed⟩ := hitem
      rw [← ih]
      simp only [List.append_assoc, List.cons_append]
      rw [skipFrom_nextItem (by rw [skipSpaces_append hbefore, skipSpaces_cons (by decide)])]
      refine hpassed _ _ _ ?_ (closes_behind hmore hafter (by decide) rest)
      rw [skipSpaces_append hgap, skipSpaces_value hvalue]

private theorem passed_list {items : List Value}
    (hitems : Enclosed PassedValue '[' ']' text items) : Passed text := by
  intro stack cs rest hcs hrest
  cases hitems with
  | empty hspaces =>
      refine skipFrom_empty (.inl ⟨rfl, rfl⟩) hcs ?_
      simp only [List.append_eq, List.append_assoc]
      rw [skipSpaces_append hspaces]
      exact skipSpaces_cons (by decide) rest
  | @items before _ after _ hbefore hitems hafter =>
      obtain @⟨item, more, _, _, ⟨hvalue, hpassed⟩, hmore⟩ := hitems
      simp only [List.cons_append, List.append_assoc, List.nil_append] at hcs
      have hclose : ∀ c ∈ (item ++ (more ++ (after ++ ']' :: rest))).head?, c ≠ ']' := by
        obtain ⟨c, tail, rfl, hopens⟩ := hvalue.head
        rintro d ⟨⟩
        exact hopens.not_space.2
      -- The first item has no comma before it, so the other items are passed over by induction.
      have hfirst : skipSpaces (before ++ (item ++ (more ++ (after ++ ']' :: rest)))) =
          item ++ (more ++ (after ++ ']' :: rest)) := by
        rw [skipSpaces_append hbefore, skipSpaces_value hvalue]
      rw [skipFrom_list hcs (by rwa [hfirst]), hfirst,
        hpassed _ _ _ (skipSpaces_value hvalue _) (closes_behind hmore hafter (by decide) rest)]
      exact skipFrom_moreItems hmore hafter

/-! ### Records -/

private theorem skipFrom_moreMembers {members : List (List Piece × Value)}
    (hmembers : MoreText (MemberText PassedValue) text members) (hafter : Spaces after) :
    skipFrom .afterValue (.record :: stack) (text ++ (after ++ '}' :: rest)) =
      skipFrom .afterValue stack rest := by
  induction hmembers with
  | nil =>
      refine skipFrom_close (.inr ⟨rfl, rfl⟩) ?_
      rw [List.nil_append, skipSpaces_append hafter, skipSpaces_cons (by decide)]
  | @cons before gap _ more _ _ hbefore hgap hmember hmore ih =>
      rw [← ih]
      cases hmember with
      | mk hname hcolon hspaces hvalue =>
          obtain ⟨hvalue, hpassed⟩ := hvalue
          simp only [List.append_assoc, List.cons_append]
          rw [skipFrom_nextMember (by rw [skipSpaces_append hbefore, skipSpaces_cons (by decide)])
            (by rw [skipSpaces_append hgap, skipSpaces_string hname, skipName_append hname hcolon])]
          refine hpassed _ _ _ ?_ (closes_behind hmore hafter (by decide) rest)
          rw [skipSpaces_append hspaces, skipSpaces_value hvalue]

private theorem passed_record {members : List (List Piece × Value)}
    (hmembers : Enclosed (MemberText PassedValue) '{' '}' text members) : Passed text := by
  intro stack cs rest hcs hrest
  cases hmembers with
  | empty hspaces =>
      refine skipFrom_empty (.inr ⟨rfl, rfl⟩) hcs ?_
      simp only [List.append_eq, List.append_assoc]
      rw [skipSpaces_append hspaces]
      exact skipSpaces_cons (by decide) rest
  | @items before _ after _ hbefore hmembers hafter =>
      obtain @⟨_, more, _, _, hmember, hmore⟩ := hmembers
      obtain @⟨name, colon, gap, item, _, _, hname, hcolon, hgap, hvalue, hpassed⟩ := hmember
      simp only [List.cons_append, List.append_assoc, List.nil_append] at hcs
      generalize htail : more ++ (after ++ '}' :: rest) = tail at hcs
      have hclose : ∀ c ∈ (name ++ (colon ++ ':' :: (gap ++ (item ++ tail)))).head?, c ≠ '}' := by
        obtain ⟨inner, rfl⟩ := hname.head
        rintro d ⟨⟩
        decide
      have hfirst : skipSpaces (before ++ (name ++ (colon ++ ':' :: (gap ++ (item ++ tail))))) =
          name ++ (colon ++ ':' :: (gap ++ (item ++ tail))) := by
        rw [skipSpaces_append hbefore, skipSpaces_string hname]
      have hitem : skipSpaces (gap ++ (item ++ tail)) = item ++ tail := by
        rw [skipSpaces_append hgap, skipSpaces_value hvalue]
      rw [skipFrom_record hcs (by rwa [hfirst]) (by rw [hfirst, skipName_append hname hcolon]),
        hpassed _ _ _ hitem, ← htail]
      · exact skipFrom_moreMembers hmore hafter
      · rw [← htail]
        exact closes_behind hmore hafter (by decide) rest

end Parts

/-- **A value is passed over whole.** -/
theorem skipFrom_value {text : List Char} {value : Value} (hvalue : ValueText text value) :
    Passed text := by
  refine ValueText.induct (motive := fun text _ => Passed text) ?null ?bool ?number ?string ?list
    ?record hvalue
  case null =>
    exact passed_scalar (by decide) (by decide) (takeWord_append "ull".toList)
  case bool =>
    intro value
    cases value with
    | true =>
        exact passed_scalar (by decide) (by decide) (takeWord_append "rue".toList)
    | false =>
        exact passed_scalar (by decide) (by decide) (takeWord_append "alse".toList)
  case number => exact fun negative _ hmagnitude => passed_number negative hmagnitude
  case string =>
    rintro _ _ ⟨hcontent⟩
    refine passed_scalar (by decide) (by decide) fun rest => ?_
    rw [List.append_assoc]
    exact skipString_content hcontent rest
  case list => exact fun hitems => passed_list hitems
  case record => exact fun hmembers => passed_record hmembers

theorem skipValue_append {spaces text rest : List Char} {value : Value} (hspaces : Spaces spaces)
    (hvalue : ValueText text value) (hrest : Closes rest) :
    skipValue (spaces ++ (text ++ rest)) = .ok rest := by
  have hcs : skipSpaces (spaces ++ (text ++ rest)) = text ++ rest := by
    rw [skipSpaces_append hspaces, skipSpaces_value hvalue]
  rw [skipValue, skipFrom_value hvalue _ _ _ hcs hrest, skipFrom]

end PNorm.Json
