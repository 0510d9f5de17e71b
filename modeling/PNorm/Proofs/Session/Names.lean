import PNorm.Proofs.Call.Reading
import PNorm.Proofs.Session.Runs
import PNorm.Session.Evaluate

/-!
# Names that can be bound and names that can be written

Two rules say what a name is, and neither refers to the other.  `isSymbolName`
goes through the characters of a name and looks it up among the reserved words;
it decides what a session binds.  The grammar takes any word for an identifier
that is not a keyword; it decides what a source text can refer to.

They agree (`isSymbolName_iff`), so that whatever a session binds can be written
in a call, and whatever a call refers to could be bound.  The reserved words
are the keywords: they are never bound, and in a call they are numbers.

The two rules look at different places.  A reserved word is compared as a whole,
while the reader of a call finds a keyword at the start of a word and has to make
sure that the word ends there.  A name such as `info`, which only starts with a
keyword, is where a reader that did not look behind it would go wrong
(`parse_identifier_info`).

The statement about sessions comes last and needs both halves: what is bound is a
symbol name by the invariant, a symbol name can be written, and what is written is
read as the name that was bound.
-/

namespace PNorm

open Grammar

/-! ## One rule and the other -/

theorem mem_reservedNames_iff {name : String} :
    name ∈ reservedNames ↔ name.toList ∈ keywords := by
  have htoList (word : String) : name = word ↔ name.toList = word.toList :=
    String.toList_inj.symm
  simp only [reservedNames, keywords, List.mem_cons, List.not_mem_nil, or_false, htoList]

/-- A symbol name is a word of the grammar that is no keyword. -/
theorem isSymbolName_iff {name : String} :
    isSymbolName name = true ↔ IsWord name.toList ∧ name.toList ∉ keywords := by
  rw [← mem_reservedNames_iff, isSymbolName]
  cases name.toList with
  | nil => simp [IsWord]
  | cons c rest => simp [IsWord]

private theorem isSymbolName_of_mem_reservedNames {word : String} (hword : word ∈ reservedNames) :
    isSymbolName word = false := by
  rw [← Bool.not_eq_true, isSymbolName_iff]
  exact fun h => h.2 (mem_reservedNames_iff.mp hword)

namespace Call

/-! ## Writing a name -/

/-- The call of a function with one argument, written without spaces. -/
theorem callText_single {name argument : List Char} {value : Argument} (hname : IsWord name)
    (hargument : ArgumentText argument value) :
    CallText (name ++ '(' :: (argument ++ [')'])) ⟨String.ofList name, [value]⟩ := by
  have htext := CallText.mk spaces_nil hname spaces_nil spaces_nil
    (.cons hargument .nil) spaces_nil spaces_nil
  simpa using htext

/-- The call of a function with two arguments, written without spaces. -/
theorem callText_pair {name first second : List Char} {value value' : Argument}
    (hname : IsWord name) (hfirst : ArgumentText first value)
    (hsecond : ArgumentText second value') :
    CallText (name ++ '(' :: (first ++ ',' :: (second ++ [')'])))
      ⟨String.ofList name, [value, value']⟩ := by
  have htext := CallText.mk spaces_nil hname spaces_nil spaces_nil
    (.cons hfirst (.cons spaces_nil spaces_nil hsecond .nil)) spaces_nil spaces_nil
  simpa using htext

theorem parse_single {name argument : String} {value : Argument} (hname : IsWord name.toList)
    (hargument : ArgumentText argument.toList value) :
    parse (name ++ "(" ++ argument ++ ")") = .ok ⟨name, [value]⟩ := by
  have htext := callText_single hname hargument
  rw [String.ofList_toList] at htext
  refine parse_eq_ok_iff.mpr ?_
  simpa using htext

theorem parse_symbol {function name : String} (hfunction : isSymbolName function = true)
    (hname : isSymbolName name = true) :
    parse (function ++ "(" ++ name ++ ")") = .ok ⟨function, [.identifier name]⟩ := by
  obtain ⟨hword, hkeyword⟩ := isSymbolName_iff.mp hname
  have hargument := ArgumentText.identifier hword hkeyword
  rw [String.ofList_toList] at hargument
  exact parse_single (isSymbolName_iff.mp hfunction).1 hargument

/-- A numeral of one digit, as an argument. -/
theorem argumentText_one : ArgumentText "1".toList (.number 1.0) := by
  have hspells : Spells ([] ++ "1".toList) (.decimal false 1 0) := by
    have hmantissa : Mantissa ['1'] ['1'] [] := .whole (by simp) (by simp [Digits])
    exact .decimal .absent (.mk hmantissa .absent)
  refine .number ⟨_, hspells, Numeral.rounds_iff.mpr ?_⟩
  decide +kernel

theorem parse_reserved {function word : String} (hfunction : isSymbolName function = true)
    (hword : word ∈ reservedNames) :
    ∃ x, parse (function ++ "(" ++ word ++ ")") = .ok ⟨function, [.number x]⟩ := by
  obtain ⟨x, hx⟩ := argumentText_keyword (mem_reservedNames_iff.mp hword)
  exact ⟨x, parse_single (isSymbolName_iff.mp hfunction).1 ((hx _).mpr rfl)⟩

/-! ## Reading a name -/

section Items

variable {β : Type} {Item : List Char → β → Prop}

private theorem exists_text_of_moreText {text : List Char} {values : List β}
    (htext : MoreText Item text values) : ∀ value ∈ values, ∃ item, Item item value := by
  induction htext with
  | nil => simp
  | cons _ _ hitem _ ih =>
      intro value hvalue
      rcases List.mem_cons.mp hvalue with rfl | hvalue
      · exact ⟨_, hitem⟩
      · exact ih value hvalue

/-- Every item of a list was written somewhere. -/
theorem exists_text_of_listText {text : List Char} {values : List β}
    (htext : ListText Item text values) : ∀ value ∈ values, ∃ item, Item item value := by
  cases htext with
  | cons hitem hrest =>
      intro value hvalue
      rcases List.mem_cons.mp hvalue with rfl | hvalue
      · exact ⟨_, hitem⟩
      · exact exists_text_of_moreText hrest value hvalue

end Items

/-- Every identifier of a call could be bound. -/
theorem isSymbolName_of_callText {source : List Char} {call : Call} (hcall : CallText source call)
    {name : String} (hname : .identifier name ∈ call.args) : isSymbolName name = true := by
  cases hcall with
  | mk _ _ _ _ hargs _ _ =>
      obtain ⟨text, htext⟩ := exists_text_of_listText hargs _ hname
      cases htext with
      | identifier hword hkeyword =>
          rw [isSymbolName_iff, String.toList_ofList]
          exact ⟨hword, hkeyword⟩

theorem isSymbolName_of_parse {source : String} {call : Call} (hcall : parse source = .ok call)
    {name : String} (hname : .identifier name ∈ call.args) : isSymbolName name = true :=
  isSymbolName_of_callText (parse_eq_ok_iff.mp hcall) hname

theorem parse_identifier_iff {name : String} :
    parse ("f(" ++ name ++ ")") = .ok ⟨"f", [.identifier name]⟩ ↔ isSymbolName name = true := by
  constructor
  · intro hparse
    exact isSymbolName_of_parse hparse (List.mem_singleton_self _)
  · intro hname
    have hfunction : isSymbolName "f" = true := by decide
    have hparse := parse_symbol hfunction hname
    exact hparse

end Call

/-! ## Names of a session -/

namespace Session

variable {α : Type}

theorem WellFormed.not_bound_of_reserved {s : Session α} (hs : s.WellFormed) {word : String}
    (hword : word ∈ reservedNames) : s.bound word = false := by
  by_contra hbound
  rw [Bool.not_eq_false] at hbound
  have hsymbol := hs.symbolName word hbound
  rw [isSymbolName_of_mem_reservedNames hword] at hsymbol
  cases hsymbol

variable [FloatArith α] {s : Session α}

/-- What is bound is a function, or an argument can refer to it. -/
theorem WellFormed.exists_operand_of_bound (hs : s.WellFormed) {name : String}
    (hname : s.bound name = true) :
    (∃ function, s.function? name = some function) ∨
      ∃ operand, s.operand (.identifier name) = .ok operand := by
  simp only [bound, Bool.or_eq_true, ← hs.isSome_vector?, ← hs.isSome_scalar?,
    ← hs.isSome_function?, Option.isSome_iff_exists] at hname
  rcases hname with (⟨values, hvector⟩ | ⟨value, hscalar⟩) | hfunction
  · refine .inr ⟨.vector values, ?_⟩
    rw [operand, hvector]
  · cases hvector : s.vector? name with
    | some values => exact .inr ⟨.vector values, by rw [operand, hvector]⟩
    | none => exact .inr ⟨.scalar value, by rw [operand, hvector, hscalar]⟩
  · exact .inl hfunction

/-- An argument refers to bound names alone. -/
theorem WellFormed.bound_of_operand (hs : s.WellFormed) {name : String} {operand : Operand α}
    (hoperand : s.operand (.identifier name) = .ok operand) : s.bound name = true := by
  simp only [bound, ← hs.isSome_vector?, ← hs.isSome_scalar?]
  cases hvector : s.vector? name with
  | some values => simp
  | none =>
      cases hscalar : s.scalar? name with
      | some value => simp
      | none =>
          rw [Session.operand, hvector, hscalar] at hoperand
          cases hoperand

/-- A bound value can be handed to every function that takes a value of its kind. -/
theorem WellFormed.evaluate_identifier (hs : s.WellFormed) {name functionName : String}
    {operand : Operand α} {function : Function α} {index : Nat}
    (hoperand : s.operand (.identifier name) = .ok operand)
    (hfunction : s.function? functionName = some function)
    (hindex : function.signature.resolve [operand.kind] = some index) :
    s.evaluate (functionName ++ "(" ++ name ++ ")") = .ok (function.apply index [operand]) := by
  have hbound : s.bound functionName = true := by
    rw [bound, ← hs.isSome_function?, hfunction]
    simp
  have hparse := Call.parse_symbol (hs.symbolName _ hbound)
    (hs.symbolName _ (hs.bound_of_operand hoperand))
  rw [evaluate, hparse]
  simp only [evaluateCall, hfunction, operands, hoperand, List.map_cons, List.map_nil, hindex]

/-- **The names that can be bound are the names that can be written.**  A name is a symbol name
exactly if it is read as an identifier where an argument stands.  No call refers to anything else,
and a symbol name in front of the bracket names the function.  So whatever a session binds can be
used from a source text, and no reserved word is ever bound: as an argument it is a number. -/
theorem symbol_names_are_identifiers :
    (∀ name, isSymbolName name = true ↔
      Call.parse ("f(" ++ name ++ ")") = .ok ⟨"f", [.identifier name]⟩) ∧
    (∀ source call name, Call.parse source = .ok call → .identifier name ∈ call.args →
      isSymbolName name = true) ∧
    (∀ name, isSymbolName name = true →
      Call.parse (name ++ "(1)") = .ok ⟨name, [.number 1.0]⟩) ∧
    (∀ word ∈ reservedNames, ∃ x, Call.parse ("f(" ++ word ++ ")") = .ok ⟨"f", [.number x]⟩) ∧
    ∀ actions : List (Action α),
      let s := (Host.empty.run actions).session
      (∀ word ∈ reservedNames, s.bound word = false) ∧
      (∀ name, s.bound name = true → (∃ function, s.function? name = some function) ∨
        ∃ operand, s.operand (.identifier name) = .ok operand) ∧
      ∀ name operand functionName function index,
        s.operand (.identifier name) = .ok operand →
        s.function? functionName = some function →
        function.signature.resolve [operand.kind] = some index →
          s.evaluate (functionName ++ "(" ++ name ++ ")") =
            .ok (function.apply index [operand]) := by
  refine ⟨?_, ?_, ?_, ?_, ?_⟩
  · intro name
    exact Call.parse_identifier_iff.symm
  · intro source call name hcall hname
    exact Call.isSymbolName_of_parse hcall hname
  · intro name hname
    have hparse := Call.parse_single (isSymbolName_iff.mp hname).1 Call.argumentText_one
    rwa [String.append_assoc, String.append_assoc] at hparse
  · intro word hword
    have hfunction : isSymbolName "f" = true := by decide
    have hparse := Call.parse_reserved hfunction hword
    exact hparse
  · intro actions s
    have hs : s.WellFormed := (Host.wellFormed_empty.run actions).session
    refine ⟨fun word hword => hs.not_bound_of_reserved hword,
      fun name hname => hs.exists_operand_of_bound hname, ?_⟩
    intro name operand functionName function index hoperand hfunction hindex
    exact hs.evaluate_identifier hoperand hfunction hindex

/-- A word that only starts like a keyword is a name. -/
theorem parse_identifier_info :
    isSymbolName "info" = true ∧ Call.parse "f(info)" = .ok ⟨"f", [.identifier "info"]⟩ := by
  have hname : isSymbolName "info" = true := by decide
  exact ⟨hname, ((symbol_names_are_identifiers (α := Float)).1 "info").mp hname⟩

end Session

end PNorm
