import PNorm.Proofs.Console.Line
import PNorm.Session.Edit

/-!
# A line that evaluates is a session

A line that evaluates an expression runs a session: the built-in functions are added,
the vectors and then the scalars are bound in their order, and the expression is
evaluated.  `Ends` says how such a session ends, step by step and without the runner
of the command line, and a line ends as its session does
(`evaluation_refines_session`).

An expression can be given behind the command `eval` or without a command.  The two
forms accept the same arguments, since what only one of them understands leaves a
trace in what was given (`Given.Bare`).

A session that fails names the step it failed at.  What is shown of that is stated in
full, and not by the texts of the runner: `title` has the words for each step, with the
name or the expression in question, `ReportText` puts them above the cause line by line,
and `Shows` compares the result with what is on the standard error.  So a runner that
left the step out, or named another one, would not fulfil `evaluation_refines_session`.
-/

namespace PNorm

namespace Arguments

/-! ## The two forms -/

/-- Nothing is given that only the command `eval` understands. -/
def Given.Bare (given : Given) : Prop :=
  given.places? = none ∧ given.asDocument = false

section Bare

variable {level : Level} {given given' : Given}

/-- What is understood in front of a command leaves bare what was bare. -/
theorem bare_of_front {items : List Item} (hgive : giveAll level given items = some given')
    (hat : ∀ item ∈ items, item.At .front) (hbare : given.Bare) : given'.Bare := by
  refine giveAll_keeps hgive ?_ hbare
  intro item hitem g g' hgives hg
  have hfront := hat item hitem
  cases hgives with
  | precision => cases hfront
  | json => cases hfront
  | _ => exact hg

/-- What leaves nothing but bare is understood at every level. -/
theorem at_of_bare {items : List Item} (hgive : giveAll level given items = some given')
    (hbare : given'.Bare) {item : Item} (hitem : item ∈ items) (level' : Level) :
    item.At level' := by
  obtain ⟨g, g', after, hgives, hafter⟩ := exists_gives_of_mem hgive hitem
  -- What is not bare stays so.
  have hbare' : g'.Bare := by
    by_contra hnot
    refine giveAll_keeps (P := fun given => ¬ given.Bare) hafter ?_ hnot hbare
    intro item _ g g' hgives hg hg'
    cases hgives with
    | precision => cases hg'.1
    | json => cases hg'.2
    | _ => exact hg hg'
  cases hgives with
  | precision => cases hbare'.1
  | json => cases hbare'.2
  | _ => trivial

/-- Every expression that is accepted is the one that was given in the end. -/
theorem expression_of_mem {items : List Item} {text : String}
    (hgive : giveAll level given items = some given') (htext : .expression text ∈ items) :
    given'.expression = some text := by
  obtain ⟨g, g', after, hgives, hafter⟩ := exists_gives_of_mem hgive htext
  have hgiven : g'.expression = some text := by
    cases hgives with
    | expression => rfl
  refine giveAll_keeps (P := fun given => given.expression = some text) hafter ?_ hgiven
  intro item _ g g' hgives hg
  cases hgives with
  | expression _ hnone => exact absurd (hnone.symm.trans hg) (by simp)
  | _ => exact hg

end Bare

/-- Both levels that take an expression accept the same items. -/
theorem giveAll_front (given : Given) (items : List Item) :
    giveAll .front given items = giveAll (.behind .eval) given items := by
  have hgive : Item.give .front = Item.give (.behind .eval) := by
    funext given item
    cases item <;> rfl
  rw [giveAll, giveAll, hgive]

theorem joinSettings_nothing (behind : Settings) : joinSettings ⟨[], [], false⟩ behind = behind :=
  joinSettings_of_unbound rfl rfl

theorem commandOf_eval_iff {given : Given} {expression : String} :
    commandOf .eval given = .ok (.evaluate expression none false) ↔
      given.expression = some expression ∧ given.Bare := by
  rw [commandOf.eq_def, Given.Bare]
  cases given.expression <;> simp

/-- **An expression is accepted behind `eval` with the arguments with which it is accepted without a
command**, and as the same line. -/
theorem read_eval_iff {rest : List String} {settings : Settings} {expression : String}
    (hexpression : CommandWord.ofName? expression = none) :
    read ("eval" :: rest) = .ok (.run settings (.evaluate expression none false)) ↔
      (∃ items, Says .front rest items none) ∧
        read rest = .ok (.run settings (.evaluate expression none false)) := by
  have hfront : Says .front ("eval" :: rest) [] (some (.name .eval, rest)) := .command rfl rfl rest
  constructor
  · intro h
    rcases read_eq_run_iff.mp h with ⟨given, hread, -⟩ | ⟨before, name, rest', after, command?,
      hread, hbehind, hsettings, hcommand⟩
    · rw [readLevel_eval] at hread
      cases hread
    · rw [readLevel_eval] at hread
      cases hread
      rw [joinSettings_nothing] at hsettings
      -- What is given behind `eval` is nothing that only `eval` understands, so the same arguments
      -- can stand without it.
      obtain ⟨items, hitems, hgive⟩ := exists_items hbehind
      obtain rfl := hitems.command?_behind
      obtain ⟨hgiven, hbare⟩ := commandOf_eval_iff.mp hcommand
      have hitemsFront : Says .front rest items none := by
        refine hitems.of_at (fun item hitem => at_of_bare hgive hbare hitem .front) ?_
        intro _ text htext
        have htext := (expression_of_mem hgive htext).symm.trans hgiven
        rwa [Option.some.inj htext]
      refine ⟨⟨items, hitemsFront⟩, (read_of_front hitemsFront).mpr ⟨after, ?_, hsettings, ?_⟩⟩
      · rw [giveAll_front]
        exact hgive
      · rw [hgiven]
        rfl
  · rintro ⟨⟨items, hitems⟩, h⟩
    -- The other way round: nothing is given that `eval` does not understand.
    obtain ⟨given, hgive, hsettings, hcommand⟩ := (read_of_front hitems).mp h
    have hgiven : given.expression = some expression := by
      cases hgiven : given.expression with
      | none => simp [hgiven] at hcommand
      | some text => simpa [hgiven] using hcommand
    have hbare := bare_of_front hgive hitems.at ⟨rfl, rfl⟩
    have hitemsBehind : Says (.behind .eval) rest items none :=
      hitems.of_at (fun item hitem => at_of_bare hgive hbare hitem _) (by simp)
    rw [giveAll_front] at hgive
    refine (read_of_command hfront hitemsBehind).mpr
      ⟨{}, given, rfl, hgive, ?_, commandOf_eval_iff.mpr ⟨hgiven, hbare⟩⟩
    rw [joinSettings_nothing]
    exact hsettings

end Arguments

namespace Run

/-! ## The steps of a session -/

/-- A definition, and what is being done while it is tried. -/
structure Step where
  activity : Activity
  definition : Definition Float

def vectorStep (binding : VectorBinding) : Step :=
  ⟨.bindingVector binding.name, .vector binding.name binding.values⟩

def scalarStep (binding : ScalarBinding) : Step :=
  ⟨.bindingScalar binding.name, .scalar binding.name binding.value⟩

/-- The steps that come before an expression is evaluated. -/
def steps (settings : Settings) : List Step :=
  ⟨.addingBuiltins, .builtins settings.policy⟩ ::
    (settings.vectors.map vectorStep ++ settings.scalars.map scalarStep)

/-- The session that steps lead to, from an empty one. -/
def sessionAfter (taken : List Step) : Except SessionError (Session Float) :=
  Session.empty.defineAll (taken.map Step.definition)

/-- How a session ends that takes the steps of the settings and evaluates an expression: with the
value, or with the first step that is refused, whatever the expression is, or else with the refusal
of the expression. -/
inductive Ends (settings : Settings) (expression : String) : Except Failure Float → Prop
  | value {s : Session Float} {value : Float} (hsteps : sessionAfter (steps settings) = .ok s)
      (hvalue : s.evaluate expression = .ok value) : Ends settings expression (.ok value)
  | refused {before after : List Step} {step : Step} {s : Session Float} {cause : SessionError}
      (hsteps : steps settings = before ++ step :: after) (hbefore : sessionAfter before = .ok s)
      (hcause : s.define step.definition = .error cause) :
      Ends settings expression (.error ⟨step.activity, cause⟩)
  | unevaluated {s : Session Float} {cause : SessionError}
      (hsteps : sessionAfter (steps settings) = .ok s)
      (hcause : s.evaluate expression = .error cause) :
      Ends settings expression (.error ⟨.evaluating expression, cause⟩)

/-- Take steps one after the other. -/
def takeAll (s : Session Float) : List Step → Except Failure (Session Float)
  | [] => .ok s
  | step :: rest =>
      match during step.activity (s.define step.definition) with
      | .error failure => .error failure
      | .ok s' => takeAll s' rest

theorem takeAll_append (s : Session Float) (before after : List Step) :
    takeAll s (before ++ after) = (takeAll s before).bind (takeAll · after) := by
  induction before generalizing s with
  | nil => rfl
  | cons step before ih =>
      rw [List.cons_append, takeAll, takeAll]
      cases during step.activity (s.define step.definition) with
      | error => rfl
      | ok s' => exact ih s'

theorem bindVectors_eq (s : Session Float) (bindings : List VectorBinding) :
    bindVectors s bindings = takeAll s (bindings.map vectorStep) := by
  induction bindings generalizing s with
  | nil => rfl
  | cons binding rest ih =>
      rw [bindVectors, List.map_cons, takeAll]
      simp only [vectorStep, Session.define]
      cases s.addVector binding.name binding.values with
      | error => rfl
      | ok added => exact ih added.2

theorem bindScalars_eq (s : Session Float) (bindings : List ScalarBinding) :
    bindScalars s bindings = takeAll s (bindings.map scalarStep) := by
  induction bindings generalizing s with
  | nil => rfl
  | cons binding rest ih =>
      rw [bindScalars, List.map_cons, takeAll]
      simp only [scalarStep, Session.define]
      cases s.addScalar binding.name binding.value with
      | error => rfl
      | ok added => exact ih added.2

/-- The session that a command starts with is what its steps lead to. -/
theorem start_eq (settings : Settings) :
    start settings = takeAll Session.empty (steps settings) := by
  rw [start, steps, takeAll]
  simp only [Session.define]
  cases during .addingBuiltins ((Session.empty (α := Float)).addBuiltins settings.policy) with
  | error => rfl
  | ok s =>
      simp only [takeAll_append, bindVectors_eq, bindScalars_eq]
      cases takeAll s (settings.vectors.map vectorStep) <;> rfl

section Take

variable {s s' : Session Float} {taken : List Step} {failure : Failure}

theorem takeAll_eq_ok_iff :
    takeAll s taken = .ok s' ↔ s.defineAll (taken.map Step.definition) = .ok s' := by
  induction taken generalizing s with
  | nil => simp [takeAll, Session.defineAll]
  | cons step rest ih =>
      rw [takeAll, List.map_cons, Session.defineAll]
      cases s.define step.definition with
      | error => simp [during, Except.mapError]
      | ok s₁ => exact ih

/-- Steps fail at the first of them that is refused. -/
theorem takeAll_eq_error_iff :
    takeAll s taken = .error failure ↔
      ∃ before step after s₁ cause, taken = before ++ step :: after ∧
        s.defineAll (before.map Step.definition) = .ok s₁ ∧
        s₁.define step.definition = .error cause ∧ failure = ⟨step.activity, cause⟩ := by
  constructor
  · intro h
    induction taken generalizing s with
    | nil => cases h
    | cons step rest ih =>
        rw [takeAll] at h
        cases hdefine : s.define step.definition with
        | error cause =>
            rw [hdefine] at h
            cases h
            exact ⟨[], step, rest, s, cause, rfl, rfl, hdefine, rfl⟩
        | ok s₁ =>
            rw [hdefine] at h
            obtain ⟨before, step', after, s₂, cause, rfl, hbefore, hcause, hfailure⟩ := ih h
            refine ⟨step :: before, step', after, s₂, cause, rfl, ?_, hcause, hfailure⟩
            rw [List.map_cons, Session.defineAll, hdefine]
            exact hbefore
  · rintro ⟨before, step, after, s₁, cause, rfl, hbefore, hcause, rfl⟩
    rw [takeAll_append, takeAll_eq_ok_iff.mpr hbefore]
    simp only [Except.bind, takeAll, hcause]
    rfl

end Take

section Ends

variable {settings : Settings} {expression : String} {result : Except Failure Float}

/-- A session ends as the command line computes it, and in no other way. -/
theorem ends_iff :
    Ends settings expression result ↔ (start settings).bind (evaluate · expression) = result := by
  rw [start_eq]
  constructor
  · intro h
    cases h with
    | value hsteps hvalue =>
        rw [takeAll_eq_ok_iff.mpr hsteps, Except.bind, evaluate, hvalue]
        rfl
    | refused hsteps hbefore hcause =>
        rw [takeAll_eq_error_iff.mpr ⟨_, _, _, _, _, hsteps, hbefore, hcause, rfl⟩]
        rfl
    | unevaluated hsteps hcause =>
        rw [takeAll_eq_ok_iff.mpr hsteps, Except.bind, evaluate, hcause]
        rfl
  · rintro rfl
    cases htake : takeAll Session.empty (steps settings) with
    | error failure =>
        obtain ⟨before, step, after, s, cause, hsteps, hbefore, hcause, rfl⟩ :=
          takeAll_eq_error_iff.mp htake
        exact .refused hsteps hbefore hcause
    | ok s =>
        have hsteps := takeAll_eq_ok_iff.mp htake
        cases hvalue : s.evaluate expression with
        | error cause =>
            rw [Except.bind, evaluate, hvalue]
            exact .unevaluated hsteps hvalue
        | ok value =>
            rw [Except.bind, evaluate, hvalue]
            exact .value hsteps hvalue

end Ends

/-! ## What is reported -/

/-- A line with four spaces in front of it, if it is not empty. -/
def indentedLine (line : List Char) : List Char :=
  if line = [] then [] else "    ".toList ++ line

private theorem intercalate_cons_eq_flatMap (first : List Char) (rest : List (List Char)) :
    ['\n'].intercalate (first :: rest) = first ++ rest.flatMap ('\n' :: ·) := by
  induction rest generalizing first with
  | nil => simp
  | cons second rest ih => simp [List.intercalate_cons_cons, ih]

/-- How a report names what was being done. -/
def title : Activity → String
  | .addingBuiltins => "registering builtins"
  | .bindingVector name => "binding vector '" ++ name ++ "'"
  | .bindingScalar name => "binding scalar '" ++ name ++ "'"
  | .evaluating expression => "evaluating '" ++ expression ++ "'"

/-- The report of a failure: what was being done and, indented line by line, the text of the error
that came up. -/
inductive ReportText (failure : Failure) : String → Prop
  | mk {first : List Char} {rest : List (List Char)}
      (hlines : failure.cause.message.toList = ['\n'].intercalate (first :: rest))
      (hclear : ∀ line ∈ first :: rest, '\n' ∉ line) :
      ReportText failure ("Error: " ++ title failure.activity ++ "\n\nCaused by:\n" ++
        String.ofList (['\n'].intercalate (("    ".toList ++ first) :: rest.map indentedLine)) ++
        "\n")

/-- A failure has one report, the text that is printed. -/
theorem reportText_iff {failure : Failure} {report : String} :
    ReportText failure report ↔ report = failure.message := by
  have htitle : failure.activity.message = title failure.activity := by
    cases failure.activity <;> rfl
  have hindented : ∀ first rest, failure.cause.message.toList.splitOn '\n' = first :: rest →
      Failure.indented failure.cause.message =
        ['\n'].intercalate (("    ".toList ++ first) :: rest.map indentedLine) := by
    intro first rest hsplit
    rw [intercalate_cons_eq_flatMap, List.flatMap_map, Failure.indented, hsplit]
    rfl
  have hmessage : failure.message = "Error: " ++ title failure.activity ++ "\n\nCaused by:\n" ++
      String.ofList (Failure.indented failure.cause.message) ++ "\n" := by
    rw [Failure.message, htitle]
    rfl
  rw [hmessage]
  constructor
  · rintro ⟨hlines, hclear⟩
    -- A text is cut at its line breaks in one way only.
    rw [hindented _ _ (by rw [hlines, List.splitOn_intercalate '\n' hclear (List.cons_ne_nil _ _)])]
  · rintro rfl
    obtain ⟨first, rest, hsplit⟩ := List.exists_cons_of_ne_nil
      (List.splitOn_ne_nil '\n' failure.cause.message.toList)
    have hlines : ['\n'].intercalate (failure.cause.message.toList.splitOn '\n') =
        failure.cause.message.toList := List.intercalate_splitOn '\n'
    have hclear := not_mem_of_mem_splitOn '\n' failure.cause.message.toList
    rw [hsplit] at hlines hclear
    rw [hindented first rest hsplit]
    exact .mk hlines.symm hclear

/-- What a line shows whose session ends with a result: the number on a line of its own, or nothing
but a report. -/
def Shows (places? : Option Nat) (outcome : Outcome) : Except Failure Float → Prop
  | .ok value =>
      outcome.exitCode = 0 ∧ outcome.stdout = Result.plain places? value ++ "\n"
  | .error failure =>
      outcome.exitCode = 1 ∧ outcome.stdout = "" ∧ ReportText failure outcome.stderr

private theorem fits_of_le {places? : Option Nat}
    (hplaces : ∀ places ∈ places?, places ≤ Result.maxPlaces)
    (value : Float) : Result.fits places? value = true := by
  cases places? with
  | none => cases hvalue : FloatArith.exactValue value <;> simp [Result.fits, hvalue]
  | some places =>
      have hle := hplaces places rfl
      cases hvalue : FloatArith.exactValue value <;> simp [Result.fits, hvalue, hle]

theorem shows_eval (settings : Settings) (expression : String) {places? : Option Nat}
    (hplaces : ∀ places ∈ places?, places ≤ Result.maxPlaces) :
    Shows places? (eval settings expression places? false)
      ((start settings).bind (evaluate · expression)) := by
  rw [eval]
  cases (start settings).bind (evaluate · expression) with
  | error failure => exact ⟨rfl, rfl, reportText_iff.mpr rfl⟩
  | ok value =>
      simp only [Bool.false_eq_true, if_false, Result.plain?, fits_of_le hplaces value, if_true]
      exact ⟨rfl, rfl⟩

/-! ## Lines -/

/-- **A line that evaluates runs a session, and shows how it ends.**  Whatever the arguments of an
accepted line are, the session of its settings and its expression ends in exactly one way, and the
line shows that: the number and a line break with exit code 0, or nothing with exit code 1 and an
error that names the first step that is refused.  With the command `eval` and without it the same
arguments are accepted, and the two lines end alike. -/
theorem evaluation_refines_session :
    (∀ args settings expression places?,
      Arguments.read args = .ok (.run settings (.evaluate expression places? false)) →
      (∀ places ∈ places?, places ≤ Result.maxPlaces) →
      ∃ result, (∀ other, Ends settings expression other ↔ other = result) ∧
        Shows places? (commandLine args) result) ∧
    ∀ rest settings expression, CommandWord.ofName? expression = none →
      let line := Except.ok (.run settings (.evaluate expression none false))
      (Arguments.read ("eval" :: rest) = line ↔
        (∃ items, Arguments.Says .front rest items none) ∧ Arguments.read rest = line) ∧
      (Arguments.read ("eval" :: rest) = line →
        commandLine ("eval" :: rest) = commandLine rest) := by
  refine ⟨?_, ?_⟩
  · intro args settings expression places? hread hplaces
    refine ⟨(start settings).bind (evaluate · expression), ?_, ?_⟩
    · intro other
      rw [ends_iff, eq_comm]
    · rw [commandLine, hread]
      exact shows_eval settings expression hplaces
  · intro rest settings expression hexpression line
    have hiff : Arguments.read ("eval" :: rest) = line ↔
        (∃ items, Arguments.Says .front rest items none) ∧ Arguments.read rest = line :=
      Arguments.read_eval_iff hexpression
    refine ⟨hiff, ?_⟩
    intro hread
    rw [commandLine, commandLine, hread, (hiff.mp hread).2]

/-- A bad name is reported, although the expression is no call either. -/
theorem bad_name_before_bad_call :
    let args := ["eval", "norm(", "--vector", "9=", "--precision", "3"]
    let settings : Settings := ⟨[⟨"9", []⟩], [], false⟩
    Arguments.read args = .ok (.run settings (.evaluate "norm(" (some 3) false)) ∧
      (commandLine args).exitCode = 1 ∧ (commandLine args).stdout = "" ∧
      (commandLine args).stderr =
        "Error: binding vector '9'\n\nCaused by:\n    Invalid symbol name: '9'\n" := by
  intro args settings
  have hread : Arguments.read args = .ok (.run settings (.evaluate "norm(" (some 3) false)) := by
    decide
  refine ⟨hread, ?_⟩
  obtain ⟨result, hresult, hshows⟩ := evaluation_refines_session.1 args settings "norm(" (some 3)
    hread (by decide)
  have hends : Ends settings "norm(" (.error ⟨.bindingVector "9", .invalidName "9"⟩) := by
    -- The step before it succeeds, and this one is refused.
    have hbefore : sessionAfter [⟨.addingBuiltins, .builtins .integerOnly⟩] =
        .ok (normSession .integerOnly) := by
      simp only [sessionAfter, List.map_cons, List.map_nil, Session.defineAll, Session.define,
        Norm.addBuiltins_empty]
      rfl
    have hcause : (normSession .integerOnly).define (vectorStep ⟨"9", []⟩).definition =
        .error (.invalidName "9") := by
      have hname : isSymbolName "9" = false := by decide
      simp only [vectorStep, Session.define, Session.addVector, Session.nameRefusal?, hname]
      rfl
    have hsteps : steps settings =
        [⟨.addingBuiltins, .builtins .integerOnly⟩] ++ vectorStep ⟨"9", []⟩ :: [] := rfl
    exact .refused hsteps hbefore hcause
  rw [← (hresult _).mp hends] at hshows
  obtain ⟨hexit, hstdout, hreport⟩ := hshows
  refine ⟨hexit, hstdout, ?_⟩
  rw [reportText_iff.mp hreport]
  decide

end Run

end PNorm
