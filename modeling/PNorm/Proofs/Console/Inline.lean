import PNorm.Console.Run
import PNorm.Proofs.Console.Bindings
import PNorm.Proofs.Norm.Calls
import PNorm.Proofs.Session.Locality
import PNorm.Proofs.Session.Names

/-!
# Bound and written out

On a command line the vector and the exponent of a norm can be bound to names and
referred to, or they can be written into the expression.  The two lines print the
same text and exit with the same code, whatever is chosen beside that
(`bindings_read_as_literals`).

A line is read argument by argument.  What an argument such as a policy or a
precision does to the options read so far is an `Effect`: it does not depend on
what follows, and it neither looks at the expression and the bindings nor changes
them.  Effects follow one another to effects (`exists_effect_of_choices`), so both
lines come to the same options, or to the same error.

After that the two sessions are compared.  In the one the names `x` and `p` are bound
and then looked up, in the other the numbers are in the call; both calls hand the same
two operands to the norm (`eval_inline`).  This needs that the bindings are read as the
literals are, which is the subject of `PNorm.Proofs.Console.Bindings`.
-/

namespace PNorm

open Grammar

namespace Arguments

/-! ## Arguments that choose -/

/-- An argument, with its value if there is one, that chooses a policy, a number of places or how
much is logged. -/
inductive IsChoice : List String → Prop
  | fractional : IsChoice ["--fractional-exponents"]
  | verbose : IsChoice ["--verbose"]
  | verboseLetter : IsChoice ["-v"]
  | places (text : String) : IsChoice ["--precision", text]
  | placesBehind (text : String) : IsChoice ["--precision=" ++ text]

/-- The given options with another expression and other bindings, and with plain results. -/
def Given.asking (expression : Option String) (vectors : List VectorBinding)
    (scalars : List ScalarBinding) (given : Given) : Given :=
  { given with
    expression := expression
    settings := { given.settings with vectors := vectors, scalars := scalars }
    asDocument := false }

/-- What arguments do to the options given so far, whatever follows them. -/
structure Effect (level : Level) (args : List String) (act : Given → Except UsageError Given) :
    Prop where
  reads : ∀ given rest,
    readLevel level given (args ++ rest) = (act given).bind (readLevel level · rest)
  asking : ∀ expression vectors scalars given,
    act (given.asking expression vectors scalars) =
      (act given).map (Given.asking expression vectors scalars)

theorem effect_nil (level : Level) : Effect level [] .ok := by
  refine ⟨?_, ?_⟩
  · intro given rest
    rfl
  · intro expression vectors scalars given
    rfl

theorem Effect.append {level : Level} {args args' : List String}
    {act act' : Given → Except UsageError Given} (h : Effect level args act)
    (h' : Effect level args' act') :
    Effect level (args ++ args') fun given => (act given).bind act' := by
  refine ⟨?_, ?_⟩
  · intro given rest
    rw [List.append_assoc, h.reads]
    cases act given with
    | error => rfl
    | ok given => exact h'.reads given rest
  · intro expression vectors scalars given
    rw [h.asking]
    cases act given with
    | error => rfl
    | ok given => exact h'.asking expression vectors scalars given

/-- Arguments that are refused whatever was given have an effect too. -/
theorem effect_refused {level : Level} {args : List String} {error : UsageError}
    (h : ∀ given rest, readLevel level given (args ++ rest) = .error error) :
    Effect level args fun _ => .error error :=
  ⟨h, fun _ _ _ _ => rfl⟩

/-! ## One argument -/

section Step

variable {level : Level} {arg value : String} {name : List Char}

theorem no_command (level : Level) (harg : CommandWord.ofName? arg = none) :
    (if level = .front then CommandWord.ofName? arg else none) = none := by
  rw [harg, ite_self]

theorem readLevel_flag {flag : Flag} (harg : CommandWord.ofName? arg = none)
    (hform : formOf arg = .long name none) (hoption : ValueOption.ofName? level name = none)
    (hflag : Flag.ofName? level name = some flag) (given : Given) (rest : List String) :
    readLevel level given (arg :: rest) = (giveFlag given flag).bind fun
      | .inr request => .ok (.asked request true)
      | .inl given => readLevel level given rest := by
  rw [readLevel, no_command level harg]
  simp only [hform, hoption, hflag]
  rcases giveFlag given flag with error | given | request <;> rfl

/-- An option takes its value from the next argument, if that is plain. -/
theorem readLevel_value {option : ValueOption} (harg : CommandWord.ofName? arg = none)
    (hform : formOf arg = .long name none) (hoption : ValueOption.ofName? level name = some option)
    (given : Given) (rest : List String) :
    readLevel level given (arg :: value :: rest) =
      if formOf value = .plain then
        (giveValue given option value).bind (readLevel level · rest)
      else .error (.missingValue (String.ofList name)) := by
  rw [readLevel, no_command level harg]
  simp only [hform, hoption]
  split
  · cases giveValue given option value <;> rfl
  · rfl

/-- Or from behind an equals sign. -/
theorem readLevel_valueBehind {option : ValueOption} (harg : CommandWord.ofName? arg = none)
    (hform : formOf arg = .long name (some value.toList))
    (hoption : ValueOption.ofName? level name = some option) (given : Given) (rest : List String) :
    readLevel level given (arg :: rest) =
      (giveValue given option value).bind (readLevel level · rest) := by
  rw [readLevel, no_command level harg]
  simp only [hform, hoption, String.ofList_toList]
  cases giveValue given option value <;> rfl

/-- A name that neither an option nor a flag has is refused. -/
theorem readLevel_unknown {value? : Option (List Char)} (harg : CommandWord.ofName? arg = none)
    (hform : formOf arg = .long name value?) (hoption : ValueOption.ofName? level name = none)
    (hflag : Flag.ofName? level name = none) (given : Given) (rest : List String) :
    readLevel level given (arg :: rest) = .error (.unexpected arg) := by
  rw [readLevel, no_command level harg]
  simp only [hform, hoption, hflag]
  cases value? <;> rfl

end Step

/-! ## The effect of a choice -/

theorem asking_givePrecision (expression : Option String) (vectors : List VectorBinding)
    (scalars : List ScalarBinding) (given : Given) (text : String) :
    giveValue (given.asking expression vectors scalars) .precision text =
      (giveValue given .precision text).map (Given.asking expression vectors scalars) := by
  simp only [giveValue, Given.asking]
  cases given.places? <;> cases places? text.toList <;> rfl

theorem formOf_places : formOf "--precision" = .long "precision".toList none := by decide

/-- An argument that starts with a hyphen names no command. -/
theorem not_command_of_head {arg : String} (harg : arg.toList.head? = some '-') :
    CommandWord.ofName? arg = none := by
  have hne : ∀ word : String, word.toList.head? ≠ some '-' → arg ≠ word := by
    rintro word hword rfl
    exact hword harg
  rw [CommandWord.ofName?, if_neg (hne _ (by decide)), if_neg (hne _ (by decide)),
    if_neg (hne _ (by decide)), if_neg (hne _ (by decide))]

/-- The form of a name with its value behind the first equals sign. -/
theorem formOf_behind {name : String} (hname : ∀ c ∈ name.toList, (c != '=') = true)
    (text : String) :
    formOf ("--" ++ name ++ "=" ++ text) = .long name.toList (some text.toList) := by
  have htoList : ("--" ++ name ++ "=" ++ text).toList =
      '-' :: '-' :: (name.toList ++ '=' :: text.toList) := by simp
  have hdrop : (name.toList ++ '=' :: text.toList).dropWhile (· != '=') =
      '=' :: text.toList := dropWhile_append_of_head hname (by simp)
  have htake : (name.toList ++ '=' :: text.toList).takeWhile (· != '=') =
      name.toList := takeWhile_append_of_head hname (by simp)
  obtain ⟨c, rest, hcons⟩ : ∃ c rest, name.toList ++ '=' :: text.toList = c :: rest := by
    cases name.toList <;> exact ⟨_, _, rfl⟩
  rw [hcons] at htoList hdrop htake
  simp only [formOf, htoList, hdrop, htake]

theorem formOf_placesBehind (text : String) :
    formOf ("--precision=" ++ text) = .long "precision".toList (some text.toList) := by
  have harg : "--precision=" = "--" ++ "precision" ++ "=" := by decide
  rw [harg]
  exact formOf_behind (by simp) text

private theorem not_command_placesBehind (text : String) :
    CommandWord.ofName? ("--precision=" ++ text) = none :=
  not_command_of_head (by simp)

/-- Only the command `eval` takes a precision. -/
theorem precision_ofName? (level : Level) :
    ValueOption.ofName? level "precision".toList = some .precision ∨
      ValueOption.ofName? level "precision".toList = none ∧
        Flag.ofName? level "precision".toList = none := by
  by_cases hlevel : level = .behind .eval
  · exact .inl (by simp [ValueOption.ofName?, hlevel])
  · exact .inr (by simp [ValueOption.ofName?, Flag.ofName?, hlevel])

private theorem exists_effect_of_choice (level : Level) {args : List String}
    (hargs : IsChoice args) : ∃ act, Effect level args act := by
  cases hargs with
  | verbose =>
      -- The verbosity is counted nowhere, so these two change nothing.
      refine ⟨.ok, ?_, fun _ _ _ _ => rfl⟩
      exact readLevel_flag (by decide)
        (by decide : formOf "--verbose" = .long "verbose".toList none)
        (by simp [ValueOption.ofName?]) rfl
  | verboseLetter =>
      refine ⟨.ok, ?_, fun _ _ _ _ => rfl⟩
      intro given rest
      rw [List.singleton_append, readLevel, no_command level (by decide)]
      rfl
  | fractional =>
      refine ⟨fun given =>
        if given.settings.fractional then .error (.repeated "fractional-exponents")
        else .ok { given with settings := { given.settings with fractional := true } }, ?_, ?_⟩
      · -- It can be given once.
        intro given rest
        rw [List.singleton_append, readLevel_flag (by decide)
          (by decide : formOf "--fractional-exponents" = .long "fractional-exponents".toList none)
          (by simp [ValueOption.ofName?]) rfl, giveFlag]
        cases given.settings.fractional <;> rfl
      · intro expression vectors scalars given
        obtain ⟨_, ⟨_, _, fractional⟩, _, _⟩ := given
        cases fractional <;> rfl
  | places text =>
      -- Where there is such an option its value is read or refused, and elsewhere its name is.
      rcases precision_ofName? level with hoption | ⟨hoption, hflag⟩
      · have hread : ∀ given rest, readLevel level given (["--precision", text] ++ rest) =
            if formOf text = .plain then
              (giveValue given .precision text).bind (readLevel level · rest)
            else .error (.missingValue (String.ofList "precision".toList)) :=
          readLevel_value (by decide) formOf_places hoption
        by_cases hplain : formOf text = .plain
        · simp only [if_pos hplain] at hread
          refine ⟨(giveValue · .precision text), hread, ?_⟩
          intro expression vectors scalars given
          exact asking_givePrecision expression vectors scalars given text
        · simp only [if_neg hplain] at hread
          exact ⟨_, effect_refused hread⟩
      · have hunknown : ∀ given rest, readLevel level given (["--precision", text] ++ rest) =
            .error (.unexpected "--precision") := fun given rest =>
          readLevel_unknown (by decide) formOf_places hoption hflag given (text :: rest)
        exact ⟨_, effect_refused hunknown⟩
  | placesBehind text =>
      have hcommand := not_command_placesBehind text
      rcases precision_ofName? level with hoption | ⟨hoption, hflag⟩
      · refine ⟨(giveValue · .precision text), ?_, ?_⟩
        · exact readLevel_valueBehind hcommand (formOf_placesBehind text) hoption
        · intro expression vectors scalars given
          exact asking_givePrecision expression vectors scalars given text
      · have hunknown := readLevel_unknown hcommand (formOf_placesBehind text) hoption hflag
        exact ⟨_, effect_refused hunknown⟩

theorem exists_effect_of_choices (level : Level) {choices : List (List String)}
    (hchoices : ∀ args ∈ choices, IsChoice args) : ∃ act, Effect level choices.flatten act := by
  induction choices with
  | nil => exact ⟨.ok, effect_nil level⟩
  | cons args choices ih =>
      obtain ⟨act, hact⟩ := exists_effect_of_choice level (hchoices args (by simp))
      obtain ⟨act', hact'⟩ := ih fun args hargs => hchoices args (by simp [hargs])
      exact ⟨_, hact.append hact'⟩

/-! ## Whole lines -/

/-- An argument is plain if it does not start with a hyphen. -/
theorem formOf_of_head {arg : String} (harg : arg.toList.head? ≠ some '-') :
    formOf arg = .plain := by
  rcases hchars : arg.toList with _ | ⟨c, rest⟩
  · simp only [formOf, hchars]
  · have hc : c ≠ '-' := by simpa [hchars] using harg
    simp only [formOf, hchars]
    simp [hc]

theorem readLevel_nil (level : Level) (given : Given) :
    readLevel level given [] = .ok (.done given none) := by
  rw [readLevel]

theorem readLevel_eval (given : Given) (rest : List String) :
    readLevel .front given ("eval" :: rest) = .ok (.done given (some (.name .eval, rest))) := by
  rw [readLevel]
  rfl

theorem readLevel_expression {given : Given} {expression : String}
    (hgiven : given.expression = none) (hform : formOf expression = .plain) (rest : List String) :
    readLevel (.behind .eval) given (expression :: rest) =
      readLevel (.behind .eval) { given with expression := some expression } rest := by
  rw [readLevel]
  simp only [reduceCtorEq, if_false, hform, giveExpression, Level.takesExpression, hgiven]
  rfl

/-- Where nothing is bound in front of the command, what is bound behind it holds. -/
theorem joinSettings_of_unbound {front behind : Settings} (hvectors : front.vectors = [])
    (hscalars : front.scalars = []) : joinSettings front behind =
      ⟨behind.vectors, behind.scalars, front.fractional || behind.fractional⟩ := by
  have hkeep : ∀ {β : Type} [DecidableEq β] (given : List β),
      (if given = [] then [] else given) = given := by
    intro β _ given
    split <;> simp_all
  simp only [joinSettings, hvectors, hscalars, hkeep]

/-- A line with choices in front of the command and behind what it asks for. -/
theorem read_line {front more asked : List String} {act act' : Given → Except UsageError Given}
    {expression : String} {vectors : List VectorBinding} {scalars : List ScalarBinding}
    (hfront : Effect .front front act) (hmore : Effect (.behind .eval) more act')
    (hasked : ∀ rest, readLevel (.behind .eval) {} (asked ++ rest) =
      readLevel (.behind .eval) (Given.asking (some expression) vectors scalars {}) rest) :
    read (front ++ "eval" :: (asked ++ more)) =
      (act {}).bind fun before => (act' {}).bind fun behind =>
        .ok (.run ⟨vectors, scalars, before.settings.fractional || behind.settings.fractional⟩
          (.evaluate expression behind.places? false)) := by
  have hbehind : readLevel (.behind .eval) {} (asked ++ more) =
      (act' {}).bind fun behind =>
        .ok (.done (behind.asking (some expression) vectors scalars) none) := by
    have hreads := hmore.reads (Given.asking (some expression) vectors scalars {}) []
    rw [List.append_nil, hmore.asking] at hreads
    rw [hasked, hreads]
    cases act' {} with
    | error => rfl
    | ok behind => exact readLevel_nil (.behind .eval) _
  rw [read, hfront.reads]
  have hempty := hfront.asking none [] [] {}
  cases hbefore : act {} with
  | error => rfl
  | ok before =>
      -- Nothing is bound in front of the command.
      rw [show Given.asking none [] [] {} = {} from rfl, hbefore] at hempty
      have hasking : before = before.asking none [] [] := Except.ok.inj hempty
      simp only [Except.bind, readLevel_eval, hbehind]
      cases act' {} with
      | error => rfl
      | ok behind =>
          have hvectors : before.settings.vectors = [] := by rw [hasking]; rfl
          have hscalars : before.settings.scalars = [] := by rw [hasking]; rfl
          simp only [commandOf, Given.asking, joinSettings_of_unbound hvectors hscalars]

end Arguments

namespace Run

/-! ## The two sessions -/

/-- The session that a line without bindings starts with. -/
def normSession (policy : ExponentPolicy) : Session Float :=
  Session.empty.pushFunction "norm" (Norm.function Norm.signature policy)

theorem wellFormed_normSession (policy : ExponentPolicy) : (normSession policy).WellFormed :=
  (Host.wellFormed_empty.of_perform (Norm.perform_addBuiltins policy)).session

theorem start_unbound (fractional : Bool) :
    start ⟨[], [], fractional⟩ = .ok (normSession (Settings.policy ⟨[], [], fractional⟩)) := by
  rw [start, Norm.addBuiltins_empty]
  rfl

/-- Every other symbol name is free in it. -/
theorem nameRefusal?_normSession (policy : ExponentPolicy) {name : String}
    (hsymbol : isSymbolName name = true) (hne : "norm" ≠ name) :
    (normSession policy).nameRefusal? name = none :=
  Session.nameRefusal?_pushFunction_empty _ hsymbol hne

/-- Binding vectors and scalars leaves the norm where it is. -/
theorem function?_norm_of_functions {s : Session Float} {policy : ExponentPolicy}
    (hfunctions : s.functions = (normSession policy).functions) :
    s.function? "norm" = some (Norm.function Norm.signature policy) := by
  rw [Session.function?, hfunctions]
  exact Session.function?_pushFunction _ _ _

section Binding

variable {s : Session Float} {name : String}

theorem exists_bindVectors (hs : s.WellFormed) (hname : s.nameRefusal? name = none)
    (values : List Float) : ∃ s', bindVectors s [⟨name, values⟩] = .ok s' ∧ s'.WellFormed ∧
      s'.functions = s.functions ∧
      (∀ other, s'.vector? other = if name = other then some values else s.vector? other) ∧
      ∀ other, name ≠ other → s.nameRefusal? other = none → s'.nameRefusal? other = none := by
  have hadd : s.addVector name values = _ := Session.addVector_eq_ok_iff.mpr ⟨hname, rfl, rfl⟩
  refine ⟨{ s with
    vectors := s.vectors.insert name s.vectorStore.next
    vectorStore := s.vectorStore.create values }, ?_, ?_, rfl, ?_, ?_⟩
  · rw [bindVectors, hadd]
    rfl
  · exact hs.of_change (.vector _ _ _ hname (Store.keeps_create _ _) (Store.created_next _ _))
  · exact fun other => hs.vector?_insert_create name other values
  · intro other hne hother
    rw [Session.nameRefusal?_eq_none_iff, Session.bound_eq_any_roles] at hother ⊢
    rwa [Session.roles_insert_vector hname, if_neg hne]

private theorem exists_bindScalars (hs : s.WellFormed) (hname : s.nameRefusal? name = none)
    (value : Float) : ∃ s', bindScalars s [⟨name, value⟩] = .ok s' ∧
      s'.functions = s.functions ∧ (∀ other, s'.vector? other = s.vector? other) ∧
      s'.scalar? name = some value := by
  have hadd : s.addScalar name value = _ := Session.addScalar_eq_ok_iff.mpr ⟨hname, rfl, rfl⟩
  refine ⟨{ s with
    scalars := s.scalars.insert name s.scalarStore.next
    scalarStore := s.scalarStore.create value }, ?_, rfl, fun _ => rfl, ?_⟩
  · rw [bindScalars, hadd]
    rfl
  · exact (hs.scalar?_insert_create name name value).trans (if_pos rfl)

end Binding

/-- A line that binds a vector and a scalar starts with a session in which they are read. -/
theorem exists_start_bound (fractional : Bool) (values : List Float) (value : Float) :
    ∃ s : Session Float, start ⟨[⟨"x", values⟩], [⟨"p", value⟩], fractional⟩ = .ok s ∧
      s.function? "norm" =
        (normSession (Settings.policy ⟨[], [], fractional⟩)).function? "norm" ∧
      s.operands [.identifier "x", .identifier "p"] = .ok [.vector values, .scalar value] := by
  have hs := wellFormed_normSession (Settings.policy ⟨[], [], fractional⟩)
  have hp := nameRefusal?_normSession (Settings.policy ⟨[], [], fractional⟩)
    (by decide : isSymbolName "p" = true) (by decide)
  obtain ⟨s', hvectors, hs', hfunctions, hvector, hfree⟩ := exists_bindVectors hs
    (nameRefusal?_normSession _ (by decide : isSymbolName "x" = true) (by decide)) values
  obtain ⟨s'', hscalars, hfunctions', hvector', hscalar⟩ :=
    exists_bindScalars hs' (hfree "p" (by decide) hp) value
  refine ⟨s'', ?_, ?_, ?_⟩
  · have hbuiltins : during .addingBuiltins (Session.empty.addBuiltins
        (Settings.policy ⟨[⟨"x", values⟩], [⟨"p", value⟩], fractional⟩)) =
        .ok (normSession (Settings.policy ⟨[], [], fractional⟩)) := by
      rw [Norm.addBuiltins_empty]
      rfl
    simp only [start, hbuiltins, hvectors, hscalars]
  · rw [Session.function?, hfunctions', hfunctions]
    rfl
  · have hx : s''.vector? "x" = some values := by rw [hvector', hvector, if_pos rfl]
    have hp' : s''.vector? "p" = none := by
      rw [hvector', hvector, if_neg (by decide)]
      exact (hs.lookups_of_fresh hp).1
    simp only [Session.operands, Session.operand, hx, hp', hscalar]

/-! ## The two evaluations -/

/-- A call of the norm with two arguments, as it is written on the two lines. -/
theorem parse_norm {first second : String} {arg arg' : Argument}
    (hfirst : ArgumentText first.toList arg) (hsecond : ArgumentText second.toList arg') :
    Call.parse ("norm(" ++ first ++ ", " ++ second ++ ")") = .ok ⟨"norm", [arg, arg']⟩ := by
  have hname : IsWord "norm".toList := by simp [IsWord, isWordStart, isWordPart]
  have hspace : Spaces [' '] := by simp [Spaces, Text.isSpace]
  have htext := CallText.mk spaces_nil hname spaces_nil spaces_nil
    (.cons hfirst (.cons spaces_nil hspace hsecond .nil)) spaces_nil spaces_nil
  rw [String.ofList_toList] at htext
  refine Call.parse_eq_ok_iff.mpr ?_
  simpa using htext

variable {vector number : String} {values : List Float} {x : Float}

/-- The bound names and the literals come to the same value, or to the same error. -/
theorem evaluate_inline {s s' : Session Float} (hvector : VectorText vector.toList values)
    (hnumber : NumberText number.toList x) (hfunction : s.function? "norm" = s'.function? "norm")
    (hoperands : s.operands [.identifier "x", .identifier "p"] = .ok [.vector values, .scalar x]) :
    s.evaluate "norm(x, p)" = s'.evaluate ("norm(" ++ vector ++ ", " ++ number ++ ")") := by
  have hx : ArgumentText "x".toList (.identifier "x") :=
    .identifier (by simp [IsWord, isWordStart]) (by decide)
  have hp : ArgumentText "p".toList (.identifier "p") :=
    .identifier (by simp [IsWord, isWordStart]) (by decide)
  have hbound : Call.parse "norm(x, p)" = .ok ⟨"norm", [.identifier "x", .identifier "p"]⟩ := by
    have htext : "norm(x, p)" = "norm(" ++ "x" ++ ", " ++ "p" ++ ")" := by decide
    rw [htext]
    exact parse_norm hx hp
  have hliterals : s'.operands [.vector values, .number x] = .ok [.vector values, .scalar x] := by
    have hmap : values.map FloatArith.ofDouble = values := List.map_id values
    simp only [Session.operands, Session.operand, hmap]
    rfl
  simp only [Session.evaluate, hbound, parse_norm (.vector hvector) (.number hnumber),
    Session.evaluateCall, hfunction, hoperands, hliterals]

/-- A value that has a text is printed. -/
theorem eval_of_value {settings : Settings} {s : Session Float} {expression text : String}
    {value : Float} {places? : Option Nat} (hstart : start settings = .ok s)
    (hvalue : s.evaluate expression = .ok value) (htext : Result.plain? places? value = some text) :
    eval settings expression places? false = .printed (text ++ "\n") := by
  simp only [eval, hstart, Except.bind, evaluate, during, hvalue, Except.mapError, htext,
    Bool.false_eq_true, if_false]

theorem eval_inline (hvector : VectorText vector.toList values)
    (hnumber : NumberText number.toList x) (fractional : Bool) (places? : Option Nat) :
    let bound := eval ⟨[⟨"x", values⟩], [⟨"p", x⟩], fractional⟩ "norm(x, p)" places? false
    let literal :=
      eval ⟨[], [], fractional⟩ ("norm(" ++ vector ++ ", " ++ number ++ ")") places? false
    bound.exitCode = literal.exitCode ∧ bound.stdout = literal.stdout := by
  intro bound literal
  obtain ⟨s, hstart, hfunction, hoperands⟩ := exists_start_bound fractional values x
  have hvalue := evaluate_inline hvector hnumber hfunction hoperands
  simp only [bound, literal, eval, hstart, start_unbound, Except.bind, evaluate, during, hvalue]
  cases (normSession _).evaluate ("norm(" ++ vector ++ ", " ++ number ++ ")") with
  | error => exact ⟨rfl, rfl⟩
  | ok value =>
      simp only [Except.mapError, Bool.false_eq_true, if_false, and_self]

/-- What the line with bindings asks for. -/
theorem asks_bound (hvector : VectorText vector.toList values)
    (hnumber : NumberText number.toList x) (rest : List String) :
    Arguments.readLevel (.behind .eval) {}
        (["norm(x, p)", "--vector", "x=" ++ vector, "--scalar", "p=" ++ number] ++ rest) =
      Arguments.readLevel (.behind .eval)
        (Arguments.Given.asking (some "norm(x, p)") [⟨"x", values⟩] [⟨"p", x⟩] {}) rest := by
  have hx : IsWord "x".toList := by simp [IsWord, isWordStart]
  have hp : IsWord "p".toList := by simp [IsWord, isWordStart]
  have hreadVector : Binding.readVector ("x=" ++ vector) = .ok ⟨"x", values⟩ := by
    rw [show "x=" = "x" ++ "=" by decide]
    exact Binding.readVector_of_vectorText hx hvector
  have hreadScalar : Binding.readScalar ("p=" ++ number) = .ok ⟨"p", x⟩ := by
    rw [show "p=" = "p" ++ "=" by decide]
    exact Binding.readScalar_of_numberText hp hnumber
  have hvectorPlain : Arguments.formOf ("x=" ++ vector) = .plain :=
    Arguments.formOf_of_head (by simp)
  have hscalarPlain : Arguments.formOf ("p=" ++ number) = .plain :=
    Arguments.formOf_of_head (by simp)
  have hvectorOption : Arguments.formOf "--vector" = .long "vector".toList none := by decide
  have hscalarOption : Arguments.formOf "--scalar" = .long "scalar".toList none := by decide
  simp only [List.cons_append, List.nil_append]
  rw [Arguments.readLevel_expression rfl (by decide),
    Arguments.readLevel_value (by decide) hvectorOption rfl, if_pos hvectorPlain]
  simp only [Arguments.giveValue, hreadVector, Except.bind]
  rw [Arguments.readLevel_value (by decide) hscalarOption rfl, if_pos hscalarPlain]
  simp only [Arguments.giveValue, hreadScalar, Except.bind]
  rfl

private theorem asks_literal (expression : String)
    (hexpression : expression.toList.head? ≠ some '-') (rest : List String) :
    Arguments.readLevel (.behind .eval) {} ([expression] ++ rest) =
      Arguments.readLevel (.behind .eval) (Arguments.Given.asking (some expression) [] [] {})
        rest :=
  Arguments.readLevel_expression rfl (Arguments.formOf_of_head hexpression) rest

/-- The two lines, with the same choices in front of the command and behind what it asks for. -/
theorem commandLine_inline (hvector : VectorText vector.toList values)
    (hnumber : NumberText number.toList x) {front more : List (List String)}
    (hfront : ∀ args ∈ front, Arguments.IsChoice args)
    (hmore : ∀ args ∈ more, Arguments.IsChoice args) :
    let bound := commandLine (front.flatten ++ "eval" ::
      (["norm(x, p)", "--vector", "x=" ++ vector, "--scalar", "p=" ++ number] ++ more.flatten))
    let literal := commandLine (front.flatten ++ "eval" ::
      (["norm(" ++ vector ++ ", " ++ number ++ ")"] ++ more.flatten))
    bound.exitCode = literal.exitCode ∧ bound.stdout = literal.stdout := by
  obtain ⟨act, hact⟩ := Arguments.exists_effect_of_choices .front hfront
  obtain ⟨act', hact'⟩ := Arguments.exists_effect_of_choices (.behind .eval) hmore
  have hbound := Arguments.read_line hact hact' (asks_bound hvector hnumber)
  have hliteral := Arguments.read_line hact hact'
    (asks_literal ("norm(" ++ vector ++ ", " ++ number ++ ")") (by simp))
  simp only [commandLine, hbound, hliteral]
  cases act {} with
  | error => exact ⟨rfl, rfl⟩
  | ok before =>
      simp only [Except.bind]
      cases act' {} with
      | error => exact ⟨rfl, rfl⟩
      | ok behind =>
          exact eval_inline hvector hnumber
            (before.settings.fractional || behind.settings.fractional) behind.places?

/-- **A value means the same where it is bound and where it is written out.**  A number of the
grammar is read by a scalar binding as the call reads it, and a vector by a vector binding, with its
brackets and without them.  So a line that binds the two arguments of the norm and a line that
writes them out exit with the same code and print the same text, with the same choice of a policy
and a precision. -/
theorem bindings_read_as_literals :
    (∀ name number x, IsWord name.toList → NumberText number.toList x →
      Binding.readScalar (name ++ "=" ++ number) = .ok ⟨name, x⟩ ∧
      Call.parse ("f(" ++ number ++ ")") = .ok ⟨"f", [.number x]⟩) ∧
    (∀ name vector values, IsWord name.toList → VectorText vector.toList values →
      Binding.readVector (name ++ "=" ++ vector) = .ok ⟨name, values⟩ ∧
      Call.parse ("f(" ++ vector ++ ")") = .ok ⟨"f", [.vector values]⟩ ∧
      ∃ inside, vector = "[" ++ inside ++ "]" ∧
        Binding.readVector (name ++ "=" ++ inside) = .ok ⟨name, values⟩) ∧
    ∀ vector number values x, VectorText vector.toList values → NumberText number.toList x →
      ∀ front more : List (List String), (∀ args ∈ front, Arguments.IsChoice args) →
        (∀ args ∈ more, Arguments.IsChoice args) →
      let bound := commandLine (front.flatten ++ "eval" ::
        (["norm(x, p)", "--vector", "x=" ++ vector, "--scalar", "p=" ++ number] ++ more.flatten))
      let literal := commandLine (front.flatten ++ "eval" ::
        (["norm(" ++ vector ++ ", " ++ number ++ ")"] ++ more.flatten))
      bound.exitCode = literal.exitCode ∧ bound.stdout = literal.stdout := by
  have hf : IsWord "f".toList := by simp [IsWord, isWordStart]
  refine ⟨?_, ?_, ?_⟩
  · intro name number x hname hnumber
    have hparse := Call.parse_single hf (.number hnumber)
    exact ⟨Binding.readScalar_of_numberText hname hnumber, hparse⟩
  · intro name vector values hname hvector
    have hparse := Call.parse_single hf (.vector hvector)
    refine ⟨Binding.readVector_of_vectorText hname hvector, hparse, ?_⟩
    obtain ⟨inside, hinside⟩ := Binding.exists_inside hvector
    rw [hinside] at hvector
    refine ⟨String.ofList inside, ?_, Binding.readVector_of_inside hname ?_⟩
    · rw [← String.toList_inj, hinside]
      simp
    · rwa [String.toList_ofList]
  · intro vector number values x hvector hnumber front more hfront hmore
    exact commandLine_inline hvector hnumber hfront hmore

/-- A vector of three elements, with spaces in it, is bound and written out.  Both lines print its
norm with three places. -/
theorem norm_of_three_both_ways :
    let vector := "[ 1 ,-2.5, 3e2 ]"
    let values := [1.0, -2.5, 300.0]
    let choices := ["--precision", "3", "--fractional-exponents"]
    let bound := commandLine (["-v", "eval", "norm(x, p)", "--vector", "x=[ 1 ,-2.5, 3e2 ]",
      "--scalar", "p=1"] ++ choices)
    let literal := commandLine (["-v", "eval", "norm([ 1 ,-2.5, 3e2 ], 1)"] ++ choices)
    VectorText vector.toList values ∧ NumberText "1".toList 1.0 ∧
      Binding.readScalar "p=1" = .ok ⟨"p", 1.0⟩ ∧
      Binding.readVector "x=[ 1 ,-2.5, 3e2 ]" = .ok ⟨"x", values⟩ ∧
      Call.parse "f([ 1 ,-2.5, 3e2 ])" = .ok ⟨"f", [.vector values]⟩ ∧
      bound.exitCode = literal.exitCode ∧ bound.stdout = literal.stdout ∧
      literal = .printed "298.500\n" := by
  intro vector values choices bound literal
  -- The numbers and the vector by the grammar.
  have hone : NumberText "1".toList 1.0 := by
    cases Call.argumentText_one with
    | number hnumber => exact hnumber
  have htwo : NumberText ['-', '2', '.', '5'] (-2.5) := by
    have hmantissa : Mantissa (['2'] ++ '.' :: ['5']) ['2'] ['5'] :=
      .pointed (by simp) (by simp [Digits]) (by simp [Digits])
    exact ⟨_, .decimal .minus (.mk hmantissa .absent), Numeral.rounds_iff.mpr (by decide +kernel)⟩
  have hthree : NumberText ['3', 'e', '2'] 300.0 := by
    have hmantissa : Mantissa ['3'] ['3'] [] := .whole (by simp) (by simp [Digits])
    have hpower : Power ('e' :: ([] ++ ['2'])) _ :=
      .present (.inl rfl) .absent (by simp) (by simp [Digits])
    exact ⟨_, .decimal .absent (.mk hmantissa hpower), Numeral.rounds_iff.mpr (by decide +kernel)⟩
  have hspace : Spaces [' '] := by simp [Spaces, Text.isSpace]
  have hvector : VectorText vector.toList values := by
    have hitems := VectorText.items hspace (.cons hone (.cons hspace spaces_nil htwo
      (.cons spaces_nil hspace hthree .nil))) hspace
    simpa [vector] using hitems
  obtain ⟨hscalars, hvectors, hlines⟩ := bindings_read_as_literals
  have hx : IsWord "x".toList := by simp [IsWord, isWordStart]
  have hp : IsWord "p".toList := by simp [IsWord, isWordStart]
  obtain ⟨hbinding, hcall, -⟩ := hvectors "x" vector values hx hvector
  obtain ⟨hexit, hstdout⟩ := hlines vector "1" values 1.0 hvector hone
    [["-v"]] [["--precision", "3"], ["--fractional-exponents"]]
    (by simpa using .verboseLetter) (by simpa using ⟨.places "3", .fractional⟩)
  refine ⟨hvector, hone, (hscalars "p" "1" 1.0 hp hone).1, hbinding, hcall, hexit, hstdout, ?_⟩
  -- What the line prints is computed on the side that needs no binding.
  have hread : Arguments.read (["-v", "eval", "norm([ 1 ,-2.5, 3e2 ], 1)"] ++ choices) =
      .ok (.run ⟨[], [], true⟩ (.evaluate "norm([ 1 ,-2.5, 3e2 ], 1)" (some 3) false)) := by
    decide +kernel
  have hnorm : Norm.apply .allowFractional 1 [.vector values, .scalar 1.0] = (298.5 : Float) := by
    decide +kernel
  have hparse : Call.parse "norm([ 1 ,-2.5, 3e2 ], 1)" =
      .ok ⟨"norm", [.vector values, .number 1.0]⟩ := by
    have htext : "norm([ 1 ,-2.5, 3e2 ], 1)" = "norm(" ++ vector ++ ", " ++ "1" ++ ")" := by decide
    rw [htext]
    exact parse_norm (.vector hvector) (.number hone)
  have hoperands : (normSession .allowFractional).operands [.vector values, .number 1.0] =
      .ok [.vector values, .scalar 1.0] := rfl
  have hvalue := Norm.evaluate_norm (function?_norm_of_functions rfl) hparse hoperands rfl
  have htext : Result.plain? (some 3) 298.5 = some "298.500" := by decide +kernel
  simp only [literal, commandLine, hread]
  rw [hnorm] at hvalue
  exact eval_of_value (start_unbound true) hvalue htext

end Run

end PNorm
