import PNorm.Proofs.Norm.Calls
import PNorm.Proofs.Session.Names
import PNorm.Proofs.Signature.Pattern

/-!
# What an evaluation comes to

`Session.Outcome s source result` is the reference: it says, for a session and a
source text, what the result has to be, in terms of the grammar, the tables of
the session and the pattern that a function shows.  There is one constructor for
each way an evaluation can end, and each carries everything that was checked on
the way.

In a session that a host has built, `evaluate` gives this result and no other
(`evaluate_eq_iff_outcome`).  Two facts about such sessions matter: a name is
never bound to a vector and a scalar at once, so that an identifier has one kind
and one value, and behind every bound name there is a cell.

The reference is a relation and not a second evaluator, and the two directions
are shown apart.  `outcome_evaluateCall` follows an evaluation and finds each of
its ends in the reference.  `evaluate_of_outcome` goes back: each constructor
carries enough to repeat the evaluation.  That there is exactly one outcome for
every source text needs no proof by itself after that.

What takes room is the order of the refusals.  An evaluation stops at the first
defect it meets, and the reference has to say where that is without going through
the call: by the leftmost identifier that has no value
(`WellFormed.operands_eq_error_iff`), and by the first piece of the pattern that
spells the kinds (`Signature.resolve_eq_some_iff`).
-/

namespace PNorm

open Grammar

namespace Session

variable {α : Type}

/-! ## The reference -/

section Reference

variable (s : Session α)

/-- The letter of an argument in the kind string of its call. -/
inductive HasLetter : Argument → Char → Prop
  | number (x : Float) : HasLetter (.number x) 'T'
  | vector (xs : List Float) : HasLetter (.vector xs) 'V'
  | boundVector {name : String} (hname : s.vectors.contains name = true) :
      HasLetter (.identifier name) 'V'
  | boundScalar {name : String} (hname : s.scalars.contains name = true) :
      HasLetter (.identifier name) 'T'

/-- A name is bound to neither a vector nor a scalar. -/
def Undefined (name : String) : Prop :=
  s.vectors.contains name = false ∧ s.scalars.contains name = false

/-- The letter of an operand. -/
def operandLetter (operand : Operand α) : Char :=
  operand.kind.token

variable [FloatArith α]

/-- The operand that an argument is handed over as: a literal as the nearest numbers, and an
identifier as what its cell holds at the time. -/
inductive Carries : Argument → Operand α → Prop
  | number (x : Float) : Carries (.number x) (.scalar (FloatArith.ofDouble x))
  | vector (xs : List Float) : Carries (.vector xs) (.vector (xs.map FloatArith.ofDouble))
  | boundVector {name : String} {cell : Cell (List α)} {values : List α}
      (hname : s.vectors[name]? = some cell) (hcell : s.vectorStore.read? cell = some values) :
      Carries (.identifier name) (.vector values)
  | boundScalar {name : String} {cell : Cell α} {value : α}
      (hname : s.scalars[name]? = some cell) (hcell : s.scalarStore.read? cell = some value) :
      Carries (.identifier name) (.scalar value)

/-- The result that a source text has to have. -/
inductive Outcome (source : String) : Except SessionError α → Prop
  | unreadable {refusal : Call.Refusal} (hsource : ∀ call, ¬ CallText source.toList call)
      (hrefusal : Call.parse source = .error refusal) :
      Outcome source (.error (.unreadable refusal))
  | unknownFunction {call : Call} (hcall : CallText source.toList call)
      (hfunction : ∀ entry ∈ s.functions.toList, entry.name ≠ call.name) :
      Outcome source (.error (.unknownFunction call.name))
  | undefinedVariable {call : Call} {function : Function α} {name : String}
      {before after : List Argument} (hcall : CallText source.toList call)
      (hfunction : ⟨call.name, function⟩ ∈ s.functions.toList)
      (hargs : call.args = before ++ .identifier name :: after)
      (hbefore : ∀ other, .identifier other ∈ before → ¬ s.Undefined other)
      (hname : s.Undefined name) :
      Outcome source (.error (.undefinedVariable name))
  | noMatchingSignature {call : Call} {function : Function α} {kinds : List Char}
      (hcall : CallText source.toList call)
      (hfunction : ⟨call.name, function⟩ ∈ s.functions.toList)
      (hkinds : List.Forall₂ s.HasLetter call.args kinds)
      (hnone : kinds ∉ Signature.pieces function.signature.pattern) :
      Outcome source (.error (.noMatchingSignature call.name (String.ofList kinds)
        function.signature.pattern))
  | called {call : Call} {function : Function α} {kinds : List Char} {index : Nat}
      {operands : List (Operand α)} (hcall : CallText source.toList call)
      (hfunction : ⟨call.name, function⟩ ∈ s.functions.toList)
      (hkinds : List.Forall₂ s.HasLetter call.args kinds)
      (hindex : (Signature.pieces function.signature.pattern)[index]? = some kinds)
      (hfirst : kinds ∉ (Signature.pieces function.signature.pattern).take index)
      (hoperands : List.Forall₂ s.Carries call.args operands)
      (hletters : operands.map operandLetter = kinds) :
      Outcome source (.ok (function.apply index operands))

end Reference

/-! ## Arguments -/

section WellFormed

variable {s : Session α}

theorem WellFormed.scalar?_of_vector? (hs : s.WellFormed) {name : String} {values : List α}
    (hvalues : s.vector? name = some values) : s.scalar? name = none := by
  have hvector : s.vectors.contains name = true := by
    rw [← hs.isSome_vector?, hvalues, Option.isSome_some]
  rw [← Option.isNone_iff_eq_none, ← Option.isSome_eq_false_iff, hs.isSome_scalar?]
  exact hs.not_both hvector

theorem WellFormed.undefined_iff (hs : s.WellFormed) {name : String} :
    s.Undefined name ↔ s.vector? name = none ∧ s.scalar? name = none := by
  rw [Undefined, ← hs.isSome_vector?, ← hs.isSome_scalar?, Option.isSome_eq_false_iff,
    Option.isSome_eq_false_iff, Option.isNone_iff_eq_none, Option.isNone_iff_eq_none]

variable [FloatArith α]

/-- What a bound identifier is handed over as is what one of the two lookups finds. -/
theorem carries_identifier_iff {name : String} {operand : Operand α} :
    s.Carries (.identifier name) operand ↔
      (∃ values, s.vector? name = some values ∧ operand = .vector values) ∨
        ∃ value, s.scalar? name = some value ∧ operand = .scalar value := by
  constructor
  · intro h
    cases h with
    | boundVector hname hcell =>
        exact .inl ⟨_, Option.bind_eq_some_iff.mpr ⟨_, hname, hcell⟩, rfl⟩
    | boundScalar hname hcell =>
        exact .inr ⟨_, Option.bind_eq_some_iff.mpr ⟨_, hname, hcell⟩, rfl⟩
  · rintro (⟨values, hvalues, rfl⟩ | ⟨value, hvalue, rfl⟩)
    · obtain ⟨cell, hname, hcell⟩ := Option.bind_eq_some_iff.mp hvalues
      exact .boundVector hname hcell
    · obtain ⟨cell, hname, hcell⟩ := Option.bind_eq_some_iff.mp hvalue
      exact .boundScalar hname hcell

theorem WellFormed.operand_eq_ok_iff (hs : s.WellFormed) {arg : Argument} {operand : Operand α} :
    s.operand arg = .ok operand ↔ s.Carries arg operand := by
  cases arg with
  | number x =>
      constructor
      · intro h
        cases h
        exact .number x
      · intro h
        cases h
        rfl
  | vector xs =>
      constructor
      · intro h
        cases h
        exact .vector xs
      · intro h
        cases h
        rfl
  | identifier name =>
      rw [carries_identifier_iff, Session.operand]
      cases hvector : s.vector? name with
      | some values =>
          simp [hs.scalar?_of_vector? hvector, eq_comm]
      | none =>
          cases hscalar : s.scalar? name with
          | some value => simp [eq_comm]
          | none => simp

theorem WellFormed.operand_eq_error_iff (hs : s.WellFormed) {arg : Argument}
    {error : SessionError} : s.operand arg = .error error ↔
      ∃ name, arg = .identifier name ∧ s.Undefined name ∧ error = .undefinedVariable name := by
  cases arg with
  | number x => simp [Session.operand]
  | vector xs => simp [Session.operand]
  | identifier name =>
      simp only [Argument.identifier.injEq, exists_eq_left', hs.undefined_iff, Session.operand]
      cases hvector : s.vector? name with
      | some values => simp
      | none =>
          cases hscalar : s.scalar? name with
          | some value => simp
          | none => simp [eq_comm]

/-- The letter of an argument is the letter of its operand. -/
theorem WellFormed.hasLetter_iff (hs : s.WellFormed) {arg : Argument} {c : Char} :
    s.HasLetter arg c ↔ ∃ operand, s.Carries arg operand ∧ operandLetter operand = c := by
  constructor
  · intro h
    cases h with
    | number x => exact ⟨_, .number x, rfl⟩
    | vector xs => exact ⟨_, .vector xs, rfl⟩
    | boundVector hname =>
        rw [← hs.isSome_vector?] at hname
        obtain ⟨values, hvalues⟩ := Option.isSome_iff_exists.mp hname
        exact ⟨.vector values, carries_identifier_iff.mpr (.inl ⟨values, hvalues, rfl⟩), rfl⟩
    | boundScalar hname =>
        rw [← hs.isSome_scalar?] at hname
        obtain ⟨value, hvalue⟩ := Option.isSome_iff_exists.mp hname
        exact ⟨.scalar value, carries_identifier_iff.mpr (.inr ⟨value, hvalue, rfl⟩), rfl⟩
  · intro h
    obtain ⟨operand, hcarries, rfl⟩ := h
    cases hcarries with
    | number x => exact .number x
    | vector xs => exact .vector xs
    | boundVector hname hcell =>
        refine .boundVector ?_
        rw [Std.HashMap.contains_eq_isSome_getElem?, hname, Option.isSome_some]
    | boundScalar hname hcell =>
        refine .boundScalar ?_
        rw [Std.HashMap.contains_eq_isSome_getElem?, hname, Option.isSome_some]

/-! ## Argument lists -/

theorem WellFormed.operands_eq_ok_iff (hs : s.WellFormed) {args : List Argument}
    {operands : List (Operand α)} :
    s.operands args = .ok operands ↔ List.Forall₂ s.Carries args operands := by
  induction args generalizing operands with
  | nil => simp [Session.operands, eq_comm]
  | cons arg args ih =>
      rw [Session.operands]
      cases hfirst : s.operand arg with
      | error error =>
          refine iff_of_false (by simp) ?_
          rintro (_ | ⟨hcarries, _⟩)
          rw [hs.operand_eq_ok_iff.mpr hcarries] at hfirst
          cases hfirst
      | ok operand =>
          cases hmore : s.operands args with
          | error error =>
              refine iff_of_false (by simp) ?_
              rintro (_ | ⟨_, hcarries⟩)
              rw [ih.mpr hcarries] at hmore
              cases hmore
          | ok more =>
              simp only [Except.ok.injEq]
              constructor
              · rintro rfl
                exact .cons (hs.operand_eq_ok_iff.mp hfirst) (ih.mp hmore)
              · rintro (_ | ⟨hcarries, hrest⟩)
                rw [hs.operand_eq_ok_iff.mpr hcarries] at hfirst
                rw [ih.mpr hrest] at hmore
                cases hfirst
                cases hmore
                rfl

/-- An argument list without operands has a leftmost identifier that is not defined. -/
theorem WellFormed.operands_eq_error_iff (hs : s.WellFormed) {args : List Argument}
    {error : SessionError} : s.operands args = .error error ↔
      ∃ before name after, args = before ++ .identifier name :: after ∧
        (∀ other, .identifier other ∈ before → ¬ s.Undefined other) ∧ s.Undefined name ∧
        error = .undefinedVariable name := by
  induction args with
  | nil => simp [Session.operands]
  | cons arg args ih =>
      rw [Session.operands]
      cases hfirst : s.operand arg with
      | error error' =>
          -- This is the leftmost one.
          obtain ⟨name, rfl, hname, rfl⟩ := hs.operand_eq_error_iff.mp hfirst
          simp only [Except.error.injEq]
          constructor
          · rintro rfl
            exact ⟨[], name, args, rfl, by simp, hname, rfl⟩
          · intro h
            obtain ⟨before, name', after, hargs, hbefore, hname', rfl⟩ := h
            cases before with
            | nil =>
                cases hargs
                rfl
            | cons first before =>
                cases hargs
                exact absurd hname (hbefore name (by simp))
      | ok operand =>
          -- The leftmost one is further on, and going one step left keeps it so.
          have hdefined : ∀ other, arg = .identifier other → ¬ s.Undefined other := by
            rintro other rfl hother
            rw [hs.operand_eq_error_iff.mpr ⟨other, rfl, hother, rfl⟩] at hfirst
            cases hfirst
          have hrest : s.operands args = .error error ↔
              ∃ before name after, arg :: args = before ++ .identifier name :: after ∧
                (∀ other, .identifier other ∈ before → ¬ s.Undefined other) ∧
                s.Undefined name ∧ error = .undefinedVariable name := by
            rw [ih]
            -- The witness is behind an argument with a value: one step to the left and one to the
            -- right.
            constructor
            · intro h
              obtain ⟨before, name, after, rfl, hbefore, hname, rfl⟩ := h
              refine ⟨arg :: before, name, after, rfl, ?_, hname, rfl⟩
              intro other hother
              rcases List.mem_cons.mp hother with harg | hother
              · exact hdefined other harg.symm
              · exact hbefore other hother
            · intro h
              obtain ⟨before, name, after, hargs, hbefore, hname, rfl⟩ := h
              cases before with
              | nil =>
                  cases hargs
                  exact absurd hname (hdefined name rfl)
              | cons first before =>
                  cases hargs
                  exact ⟨before, name, after, rfl,
                    fun other hother => hbefore other (List.mem_cons_of_mem _ hother), hname, rfl⟩
          rw [← hrest]
          cases s.operands args with
          | error error' => simp
          | ok more => simp

/-- The kind string of a call is spelled by its operands. -/
theorem WellFormed.forall₂_hasLetter_iff (hs : s.WellFormed) {args : List Argument}
    {kinds : List Char} : List.Forall₂ s.HasLetter args kinds ↔
      ∃ operands, List.Forall₂ s.Carries args operands ∧ operands.map operandLetter = kinds := by
  constructor
  · intro h
    induction h with
    | nil => exact ⟨[], .nil, rfl⟩
    | cons hletter _ ih =>
        obtain ⟨operand, hcarries, rfl⟩ := hs.hasLetter_iff.mp hletter
        obtain ⟨operands, hoperands, rfl⟩ := ih
        exact ⟨operand :: operands, .cons hcarries hoperands, rfl⟩
  · intro h
    obtain ⟨operands, hoperands, rfl⟩ := h
    induction hoperands with
    | nil => exact .nil
    | cons hcarries _ ih => exact .cons (hs.hasLetter_iff.mpr ⟨_, hcarries, rfl⟩) ih

end WellFormed

/-! ## Evaluating -/

theorem letters_kind (operands : List (Operand α)) :
    letters (operands.map Operand.kind) = operands.map operandLetter :=
  List.map_map

theorem kindsToken_kind (operands : List (Operand α)) :
    kindsToken (operands.map Operand.kind) = String.ofList (operands.map operandLetter) := by
  rw [← letters_kind]
  rfl

section Evaluation

variable [FloatArith α] {s : Session α}

/-- Evaluating a call ends in one of the ways that the reference lists. -/
theorem WellFormed.outcome_evaluateCall (hs : s.WellFormed) {source : String} {call : Call}
    (hcall : CallText source.toList call) : s.Outcome source (s.evaluateCall call) := by
  rw [evaluateCall]
  cases hfunction : s.function? call.name with
  | none => exact .unknownFunction hcall (hs.function?_eq_none_iff.mp hfunction)
  | some function =>
      have hentry := hs.function?_eq_some_iff.mp hfunction
      have haccepts := hs.accepts hentry
      cases hoperands : s.operands call.args with
      | error error =>
          obtain ⟨before, name, after, hargs, hbefore, hname, rfl⟩ :=
            hs.operands_eq_error_iff.mp hoperands
          exact .undefinedVariable hcall hentry hargs hbefore hname
      | ok operands =>
          have hcarries := hs.operands_eq_ok_iff.mp hoperands
          have hkinds := hs.forall₂_hasLetter_iff.mpr ⟨operands, hcarries, rfl⟩
          cases hresolve : function.signature.resolve (operands.map Operand.kind) with
          | none =>
              have hnone := (Signature.resolve_eq_none_iff haccepts).mp hresolve
              rw [letters_kind] at hnone
              simp only [hresolve, kindsToken_kind]
              exact .noMatchingSignature hcall hentry hkinds hnone
          | some index =>
              obtain ⟨hindex, hfirst⟩ := (Signature.resolve_eq_some_iff haccepts).mp hresolve
              rw [letters_kind] at hindex hfirst
              simp only [hresolve]
              exact .called hcall hentry hkinds hindex hfirst hcarries rfl

/-- The reference fixes the result of evaluating a call. -/
theorem WellFormed.evaluate_of_outcome (hs : s.WellFormed) {source : String}
    {result : Except SessionError α} (h : s.Outcome source result) :
    s.evaluate source = result := by
  cases h with
  | unreadable hsource hrefusal => rw [evaluate, hrefusal]
  | unknownFunction hcall hfunction =>
      simp only [evaluate, Call.parse_eq_ok_iff.mpr hcall, evaluateCall,
        hs.function?_eq_none_iff.mpr hfunction]
  | undefinedVariable hcall hfunction hargs hbefore hname =>
      have hoperands := hs.operands_eq_error_iff.mpr ⟨_, _, _, hargs, hbefore, hname, rfl⟩
      simp only [evaluate, Call.parse_eq_ok_iff.mpr hcall, evaluateCall,
        hs.function?_eq_some_iff.mpr hfunction, hoperands]
  | noMatchingSignature hcall hfunction hkinds hnone =>
      obtain ⟨operands, hcarries, rfl⟩ := hs.forall₂_hasLetter_iff.mp hkinds
      rw [← letters_kind, ← Signature.resolve_eq_none_iff (hs.accepts hfunction)] at hnone
      simp only [evaluate, Call.parse_eq_ok_iff.mpr hcall, evaluateCall,
        hs.function?_eq_some_iff.mpr hfunction, hs.operands_eq_ok_iff.mpr hcarries, hnone,
        kindsToken_kind]
  | called hcall hfunction hkinds hindex hfirst hcarries hletters =>
      subst hletters
      rw [← letters_kind] at hindex hfirst
      have hresolve := (Signature.resolve_eq_some_iff (hs.accepts hfunction)).mpr ⟨hindex, hfirst⟩
      simp only [evaluate, Call.parse_eq_ok_iff.mpr hcall, evaluateCall,
        hs.function?_eq_some_iff.mpr hfunction, hs.operands_eq_ok_iff.mpr hcarries, hresolve]

/-- An evaluation has the result that the reference says, and no other. -/
theorem WellFormed.evaluate_eq_iff_outcome (hs : s.WellFormed) {source : String}
    {result : Except SessionError α} : s.evaluate source = result ↔ s.Outcome source result := by
  constructor
  · rintro rfl
    rw [evaluate]
    cases hparse : Call.parse source with
    | error refusal =>
        refine .unreadable ?_ hparse
        intro call hcall
        rw [Call.parse_eq_ok_iff.mpr hcall] at hparse
        cases hparse
    | ok call => exact hs.outcome_evaluateCall (Call.parse_eq_ok_iff.mp hparse)
  · exact hs.evaluate_of_outcome

end Evaluation

/-! ## Reaching an alternative -/

/-- A literal of a kind. -/
def literal : Kind → Argument
  | .vector => .vector []
  | .scalar => .number FloatArith.nan

private theorem hasLetter_literal (s : Session α) (kind : Kind) :
    s.HasLetter (literal kind) kind.token := by
  cases kind with
  | vector => exact .vector []
  | scalar => exact .number _

theorem exists_argumentText_literal (kind : Kind) : ∃ text, ArgumentText text (literal kind) := by
  cases kind with
  | vector => exact ⟨'[' :: ([] ++ [']']), .vector (.empty spaces_nil)⟩
  | scalar => exact ⟨[] ++ "NaN".toList, .number ⟨.nan, .nan .absent, .nan⟩⟩

private theorem exists_moreText_literal (kinds : List Kind) :
    ∃ text, MoreText ArgumentText text (kinds.map literal) := by
  induction kinds with
  | nil => exact ⟨[], .nil⟩
  | cons kind kinds ih =>
      obtain ⟨text, htext⟩ := exists_argumentText_literal kind
      obtain ⟨rest, hrest⟩ := ih
      exact ⟨_, .cons spaces_nil spaces_nil htext hrest⟩

/-- For every function name and every kind string there is a source text with such a call. -/
theorem exists_callText {name : String} (hname : isSymbolName name = true) {kinds : List Kind}
    (hkinds : kinds ≠ []) :
    ∃ source : String, CallText source.toList ⟨name, kinds.map literal⟩ := by
  have hsource : ∀ {text call}, CallText text call →
      ∃ source : String, CallText source.toList call :=
    fun {text call} htext => ⟨String.ofList text, by rwa [String.toList_ofList]⟩
  cases kinds with
  | nil => exact absurd rfl hkinds
  | cons kind kinds =>
      obtain ⟨text, htext⟩ := exists_argumentText_literal kind
      obtain ⟨rest, hrest⟩ := exists_moreText_literal kinds
      have hcall := CallText.mk spaces_nil (isSymbolName_iff.mp hname).1 spaces_nil spaces_nil
        (.cons htext hrest) spaces_nil spaces_nil
      rw [String.ofList_toList] at hcall
      exact hsource hcall

/-- What is said of a session.  The pieces of a pattern are counted from zero. -/
structure FollowsReference [FloatArith α] (s : Session α) : Prop where
  /-- Every evaluation ends as the reference says. -/
  outcome : ∀ source result, s.evaluate source = result ↔ s.Outcome source result
  /-- A function whose signature was read from a pattern shows that pattern, and no piece of it
  hides another: each is the kind string of some call, which is applied through it. -/
  pattern : ∀ name function pattern, ⟨name, function⟩ ∈ s.functions.toList →
    Signature.ofPattern pattern = .ok function.signature →
      function.signature.pattern = pattern ∧ (Signature.pieces pattern).Nodup ∧
      ∀ index kinds, (Signature.pieces pattern)[index]? = some kinds →
        ∃ source call operands, CallText source.toList call ∧ call.name = name ∧
          List.Forall₂ s.HasLetter call.args kinds ∧ List.Forall₂ s.Carries call.args operands ∧
          s.evaluate source = .ok (function.apply index operands)

section Alternatives

variable [FloatArith α] {s : Session α}

theorem WellFormed.exists_call_of_piece (hs : s.WellFormed) {name pattern : String}
    {function : Function α} (hentry : ⟨name, function⟩ ∈ s.functions.toList)
    (hpattern : Signature.ofPattern pattern = .ok function.signature) {index : Nat}
    {kinds : List Char} (hkinds : (Signature.pieces pattern)[index]? = some kinds) :
    ∃ source call operands, CallText source.toList call ∧ call.name = name ∧
      List.Forall₂ s.HasLetter call.args kinds ∧ List.Forall₂ s.Carries call.args operands ∧
      s.evaluate source = .ok (function.apply index operands) := by
  have hnodup := Signature.nodup_pieces_of_ofPattern hpattern
  obtain ⟨hpieces, hne, -⟩ := Signature.ofPattern_eq_ok_iff.mp hpattern
  obtain ⟨alternative, halternative, rfl⟩ : ∃ alternative ∈ function.signature.alternatives,
      letters alternative = kinds := by
    rw [hpieces] at hkinds
    exact List.mem_map.mp (List.mem_of_getElem? hkinds)
  have hnonempty : alternative ≠ [] := by
    rintro rfl
    exact hne halternative
  have hname : isSymbolName name = true := by
    refine hs.symbolName name ?_
    rw [bound, ← hs.isSome_function?, hs.function?_eq_some_iff.mpr hentry]
    simp
  -- One literal for each letter: such a call has a source text, and its kinds spell the piece.
  obtain ⟨source, hcall⟩ := exists_callText hname hnonempty
  have hletters : List.Forall₂ s.HasLetter (alternative.map literal) (letters alternative) := by
    rw [letters, List.forall₂_map_left_iff, List.forall₂_map_right_iff, List.forall₂_same]
    exact fun kind _ => hasLetter_literal s kind
  obtain ⟨operands, hcarries, hoperands⟩ := hs.forall₂_hasLetter_iff.mp hletters
  refine ⟨source, _, operands, hcall, rfl, hletters, hcarries, ?_⟩
  have hshown := Signature.pattern_of_ofPattern hpattern
  refine hs.evaluate_of_outcome (.called hcall hentry hletters ?_ ?_ hcarries hoperands)
  · rw [hshown]
    exact hkinds
  · -- The pieces are all different, so no earlier one hides it.
    rw [hshown]
    exact not_mem_take_of_nodup hnodup hkinds

end Alternatives

/-- **Evaluating is what the reference says**, whatever was tried on the session before. -/
theorem evaluate_follows_reference [FloatArith α] (actions : List (Action α)) :
    (Host.empty.run actions).session.FollowsReference := by
  have hs := (Host.wellFormed_empty.run actions).session
  refine ⟨fun _ _ => hs.evaluate_eq_iff_outcome, ?_⟩
  intro name function pattern hentry hpattern
  refine ⟨Signature.pattern_of_ofPattern hpattern, Signature.nodup_pieces_of_ofPattern hpattern, ?_⟩
  intro index kinds hkinds
  exact hs.exists_call_of_piece hentry hpattern hkinds

/-- The norm and one vector.  A function that is not there comes before an argument that is not
there, such an argument before the kinds of all, and a call that fits hands the vector over. -/
theorem evaluations_with_norm_and_vector :
    let s : Session Float :=
      (Host.empty.run [.addBuiltins .integerOnly, .addVector "x" [3.0, 4.0]]).session
    s.evaluate "f(y)" = .error (.unknownFunction "f") ∧
      s.evaluate "norm(x,y)" = .error (.undefinedVariable "y") ∧
      s.evaluate "norm(x,x)" = .error (.noMatchingSignature "norm" "VV" "V|VT") ∧
      s.evaluate "norm(x)" = .ok 5.0 := by
  intro s
  let first : Host Float := Host.empty.run [.addBuiltins .integerOnly]
  let norm : Function Float := Norm.function Norm.signature .integerOnly
  have hsession : first.session = empty.pushFunction "norm" norm :=
    Norm.session_run_addBuiltins .integerOnly
  have hreference := (evaluate_follows_reference (α := Float)
    [.addBuiltins .integerOnly, .addVector "x" [3.0, 4.0]]).outcome
  have hs : s.WellFormed := (Host.wellFormed_empty.run _).session
  -- The lookups find one function, one vector and no scalar.
  have hfree : first.session.nameRefusal? "x" = none := by
    rw [hsession]
    exact nameRefusal?_pushFunction_empty norm (by decide) (by decide)
  obtain ⟨hvectors, hscalars, hfunctions⟩ :=
    Host.lookups_run_addVector (Host.wellFormed_empty.run _) hfree [3.0, 4.0]
  have hentry : ⟨"norm", norm⟩ ∈ s.functions.toList :=
    hs.function?_eq_some_iff.mp (Norm.function?_norm .integerOnly _)
  have hf : s.function? "f" = none := by
    refine (congrFun hfunctions "f").trans ?_
    rw [hsession, wellFormed_empty.function?_pushFunction_of_ne
      (functionRefusal?_empty (by decide) rfl) (by decide)]
    simp [function?, Registry.find?, Registry.idOf?, empty, Registry.empty]
  have hx : s.Carries (.identifier "x") (.vector [3.0, 4.0]) :=
    carries_identifier_iff.mpr (.inl ⟨_, hvectors "x", rfl⟩)
  have hletter : s.HasLetter (.identifier "x") 'V' := hs.hasLetter_iff.mpr ⟨_, hx, rfl⟩
  have hy : s.Undefined "y" := by
    refine hs.undefined_iff.mpr ⟨(hvectors "y").trans ?_, (congrFun hscalars "y").trans ?_⟩ <;>
      rw [hsession] <;> simp [vector?, scalar?, pushFunction, empty]
  -- The texts of the four calls.
  have hword (c : Char) (hc : isWordStart c = true) : IsWord [c] := by simp [IsWord, hc]
  have hnorm : IsWord "norm".toList := by simp [IsWord, isWordStart, isWordPart]
  have hxText : ArgumentText ['x'] (.identifier "x") := .identifier (hword 'x' rfl) (by decide)
  have hyText : ArgumentText ['y'] (.identifier "y") := .identifier (hword 'y' rfl) (by decide)
  have hfy : CallText "f(y)".toList ⟨"f", [.identifier "y"]⟩ :=
    Call.callText_single (hword 'f' rfl) hyText
  have hnormxy : CallText "norm(x,y)".toList ⟨"norm", [.identifier "x", .identifier "y"]⟩ :=
    Call.callText_pair hnorm hxText hyText
  have hnormxx : CallText "norm(x,x)".toList ⟨"norm", [.identifier "x", .identifier "x"]⟩ :=
    Call.callText_pair hnorm hxText hxText
  have hnormx : CallText "norm(x)".toList ⟨"norm", [.identifier "x"]⟩ :=
    Call.callText_single hnorm hxText
  have hargs : [Argument.identifier "x", .identifier "y"] =
      [.identifier "x"] ++ .identifier "y" :: [] := rfl
  have hbefore (other : String) (hother : .identifier other ∈ [Argument.identifier "x"]) :
      ¬ s.Undefined other := by
    obtain rfl : other = "x" := by simpa using hother
    intro hundefined
    cases (hvectors "x").symm.trans (hs.undefined_iff.mp hundefined).1
  have hindex : (Signature.pieces norm.signature.pattern)[0]? = some ['V'] := by decide
  have hvalue : norm.apply 0 [.vector [3.0, 4.0]] = 5.0 := by decide +kernel
  refine ⟨?_, ?_, ?_, ?_⟩
  · exact (hreference _ _).mpr (.unknownFunction hfy (hs.function?_eq_none_iff.mp hf))
  · exact (hreference _ _).mpr (.undefinedVariable hnormxy hentry hargs hbefore hy)
  · exact (hreference _ _).mpr
      (.noMatchingSignature hnormxx hentry (.cons hletter (.cons hletter .nil)) (by decide))
  · rw [← hvalue]
    exact (hreference _ _).mpr
      (.called hnormx hentry (.cons hletter .nil) hindex (by decide) (.cons hx .nil) rfl)

end Session

end PNorm
