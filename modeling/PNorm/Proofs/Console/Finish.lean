import PNorm.Proofs.Console.Demonstration

/-!
# How an accepted line ends

An accepted line answers on the standard output with exit code 0, or it fails with exit
code 1 and a report on the standard error.  `Answers` says what the answer to a line is
and `Fails` what its report is, command by command.

There is one more way to end.  A precision can be any machine word, but a number is not
written with more than `Result.maxPlaces` places.  A line that asks for more of a finite
number (`AsksTooMuch`) ends with exit code 101, and it is the only kind of line that
does (`accepted_lines_finish`).

The three commands are gone through one by one (`settles_eval`, `settles_signatures`,
`settles_demo`), and what is left of a line after that is which of them it has.  Only
the command that evaluates can ask for too many places, and only if there is a number
to be written: a line that fails before that fails with exit code 1, whatever precision
it asks for.

Lines that are not accepted, and those that ask for help or for the version, are no
subject of this file.
-/

namespace PNorm

namespace Run

/-- The answer to a line, where nothing fails. -/
inductive Answers : Invocation → String → Prop
  | version : Answers .version versionLine
  | help {topic : HelpTopic} : Answers (.help topic) (Help.text topic)
  | number {settings : Settings} {expression : String} {places? : Option Nat} {value : Float}
      (hends : Ends settings expression (.ok value)) :
      Answers (.run settings (.evaluate expression places? false))
        (Result.plain places? value ++ "\n")
  | document {settings : Settings} {expression : String} {places? : Option Nat} {value : Float}
      (hends : Ends settings expression (.ok value)) :
      Answers (.run settings (.evaluate expression places? true))
        (Result.document expression value settings.policy ++ "\n")
  | listing {settings : Settings} (hbindings : Compatible settings) :
      Answers (.run settings .demo) demoListing
  | signatures {settings : Settings} {s : Session Float} (hstart : start settings = .ok s) :
      Answers (.run settings .signatures) "norm         V|VT\n"

/-- What a line reports, where something fails. -/
inductive Fails : Invocation → String → Prop
  | evaluation {settings : Settings} {expression : String} {places? : Option Nat}
      {asDocument : Bool} {failure : Failure} (hends : Ends settings expression (.error failure)) :
      Fails (.run settings (.evaluate expression places? asDocument)) failure.message
  | listing {settings : Settings} {failure : Failure}
      (hstart : start (demoSettings settings) = .error failure) :
      Fails (.run settings .demo) failure.message
  | signatures {settings : Settings} {failure : Failure}
      (hstart : start settings = .error failure) :
      Fails (.run settings .signatures) failure.message
  | nothing {settings : Settings} : Fails (.run settings .nothing) hint

/-- A line that asks for more places than a number is written with.  The special values have no
places, and documents do not look at the precision. -/
inductive AsksTooMuch : Invocation → Prop
  | places {settings : Settings} {expression : String} {places : Nat} {value : Float}
      {negative : Bool} {steps depth : Nat} (hends : Ends settings expression (.ok value))
      (hfinite : FloatArith.exactValue value = .finite negative steps depth)
      (hplaces : Result.maxPlaces < places) :
      AsksTooMuch (.run settings (.evaluate expression (some places) false))

/-- The ways in which a line can end. -/
inductive Settles (invocation : Invocation) : Outcome → Prop
  | answered {text : String} (hanswers : Answers invocation text) :
      Settles invocation (.printed text)
  | failed {message : String} (hfails : Fails invocation message) :
      Settles invocation (.failed message)
  | tooManyPlaces (hasks : AsksTooMuch invocation) : Settles invocation .tooManyPlaces

/-! ## Command by command -/

section Commands

variable {settings : Settings} {expression : String} {places? : Option Nat} {value : Float}

theorem not_fits_iff :
    Result.fits places? value = false ↔
      ∃ places negative steps depth, places? = some places ∧ Result.maxPlaces < places ∧
        FloatArith.exactValue value = .finite negative steps depth := by
  cases places? <;> cases hvalue : FloatArith.exactValue value <;>
    simp [Result.fits, hvalue]

theorem settles_eval (settings : Settings) (expression : String) (places? : Option Nat)
    (asDocument : Bool) :
    Settles (.run settings (.evaluate expression places? asDocument))
      (eval settings expression places? asDocument) := by
  rw [eval]
  cases hresult : (start settings).bind (evaluate · expression) with
  | error failure => exact .failed (.evaluation (ends_iff.mpr hresult))
  | ok value =>
      have hends : Ends settings expression (.ok value) := ends_iff.mpr hresult
      cases asDocument with
      | true => exact .answered (.document hends)
      | false =>
          simp only [Bool.false_eq_true, if_false, Result.plain?]
          cases hfits : Result.fits places? value with
          | true => exact .answered (.number hends)
          | false =>
              obtain ⟨places, negative, steps, depth, rfl, hplaces, hfinite⟩ :=
                not_fits_iff.mp hfits
              exact .tooManyPlaces (.places hends hfinite hplaces)

/-- The only function of a session is the norm. -/
theorem signatures_of_start {s : Session Float} (hstart : start settings = .ok s) :
    signatures settings = .printed "norm         V|VT\n" := by
  have hentries :
      s.functions.toList = [⟨"norm", Norm.function Norm.signature settings.policy⟩] := by
    rw [(retains_of_start hstart).functions]
    rfl
  have hline : Text.padRight 12 "norm" ++ " " ++ Norm.signature.pattern ++ "\n" =
      "norm         V|VT\n" := by decide
  rw [signatures, hstart]
  simp only [Except.map, hentries, print, List.map_cons, List.map_nil]
  rw [← hline]
  simp [Norm.function]

theorem settles_signatures (settings : Settings) :
    Settles (.run settings .signatures) (signatures settings) := by
  cases hstart : start settings with
  | ok s =>
      rw [signatures_of_start hstart]
      exact .answered (.signatures hstart)
  | error failure =>
      rw [signatures, hstart]
      exact .failed (.signatures hstart)

theorem settles_demo (settings : Settings) : Settles (.run settings .demo) (demo settings) := by
  cases hstart : start (demoSettings settings) with
  | ok s =>
      rw [(demo_of_start hstart).1]
      exact .answered (.listing ((exists_start_demo_iff settings).mp ⟨s, hstart⟩))
  | error failure =>
      rw [(demo_of_refused hstart).1]
      exact .failed (.listing hstart)

end Commands

theorem settles_line {args : List String} {invocation : Invocation}
    (hread : Arguments.read args = .ok invocation) : Settles invocation (commandLine args) := by
  rw [commandLine, hread]
  cases invocation with
  | version => exact .answered .version
  | help topic => exact .answered .help
  | run settings command =>
      cases command with
      | evaluate expression places? asDocument => exact settles_eval _ _ _ _
      | demo => exact settles_demo settings
      | signatures => exact settles_signatures settings
      | nothing => exact .failed .nothing

/-- Nothing but the precision and the number decides whether too much is asked for. -/
theorem tooManyPlaces_of_asksTooMuch {args : List String} {invocation : Invocation}
    (hread : Arguments.read args = .ok invocation) (hasks : AsksTooMuch invocation) :
    commandLine args = .tooManyPlaces := by
  rw [commandLine, hread]
  cases hasks with
  | places hends hfinite hplaces =>
      have hfits := not_fits_iff.mpr ⟨_, _, _, _, rfl, hplaces, hfinite⟩
      simp only [eval, ends_iff.mp hends, Bool.false_eq_true, if_false, Result.plain?, hfits]

/-- Every report begins alike. -/
theorem exists_report {invocation : Invocation} {message : String}
    (hfails : Fails invocation message) : ∃ report, message = "Error: " ++ report := by
  have hfailure : ∀ failure : Failure, ∃ report, failure.message = "Error: " ++ report := by
    intro failure
    refine ⟨failure.activity.message ++ "\n\nCaused by:\n" ++
      String.ofList (Failure.indented failure.cause.message) ++ "\n", ?_⟩
    simp only [Failure.message, String.append_assoc]
    rfl
  cases hfails with
  | evaluation => exact hfailure _
  | listing => exact hfailure _
  | signatures => exact hfailure _
  | nothing => exact ⟨String.ofList (hint.toList.drop 7), by decide +kernel⟩

end Run

/-! ## As a process -/

namespace Process

open Run

theorem seen_eval (settings : Settings) (expression : String) (places? : Option Nat)
    (asDocument : Bool) :
    (Process.eval settings expression places? asDocument).seen =
      (Run.eval settings expression places? asDocument).seen := by
  rw [Process.eval, Run.eval]
  cases start settings with
  | error failure => rfl
  | ok s =>
      rw [seen_require_ok, Except.bind]
      cases Run.evaluate s expression with
      | error failure => rfl
      | ok value =>
          rw [seen_require_ok]
          cases asDocument with
          | true => exact seen_printLine _
          | false =>
              simp only [Bool.false_eq_true, if_false]
              cases Result.plain? places? value with
              | none => rfl
              | some text => exact seen_printLine text

theorem seen_signatures (settings : Settings) :
    (Process.signatures settings).seen = (Run.signatures settings).seen := by
  rw [Process.signatures, Run.signatures]
  cases start settings with
  | error failure => rfl
  | ok s =>
      have hrun : (s.functions.toList.forM fun entry => printLine (signatureLine entry)).run "" =
          .ok () ("" ++ String.join (s.functions.toList.map (signatureLine · ++ "\n"))) :=
        run_forM (fun _ _ _ => rfl) ""
      rw [String.empty_append] at hrun
      rw [seen_require_ok, seen, hrun]
      rfl

theorem seen_perform {args : List String} {invocation : Invocation}
    (hread : Arguments.read args = .ok invocation) :
    (perform invocation).seen = (commandLine args).seen := by
  rw [commandLine, hread]
  cases invocation with
  | version => rfl
  | help topic => rfl
  | run settings command =>
      cases command with
      | evaluate expression places? asDocument => exact seen_eval _ _ _ _
      | demo => exact seen_demo settings
      | signatures => exact seen_signatures settings
      | nothing => rfl

end Process

namespace Run

/-! ## Every line -/

/-- **An accepted line answers or fails, but for one that asks for too many places.**  A line that
answers exits with code 0 and writes its answer; a line that fails exits with code 1, writes nothing
but a report, and the report begins with `Error: `.  Only a line that asks for more places than a
finite number can be written with ends otherwise.  All this holds of the process too, whose output
stays written where it stops. -/
theorem accepted_lines_finish (args : List String) (invocation : Invocation)
    (hread : Arguments.read args = .ok invocation) :
    (¬ AsksTooMuch invocation →
      (commandLine args).exitCode = 0 ∧ Answers invocation (commandLine args).stdout ∨
        (commandLine args).exitCode = 1 ∧ (commandLine args).stdout = "" ∧
          Fails invocation (commandLine args).stderr ∧
          ∃ report, (commandLine args).stderr = "Error: " ++ report) ∧
    ((commandLine args).exitCode = 101 ↔ AsksTooMuch invocation) ∧
    (Process.perform invocation).seen = (commandLine args).seen := by
  have hsettles := settles_line hread
  have htoo := tooManyPlaces_of_asksTooMuch hread
  have hprocess := Process.seen_perform hread
  generalize commandLine args = outcome at hsettles htoo hprocess
  refine ⟨?_, ?_, hprocess⟩
  · intro hasks
    cases hsettles with
    | answered hanswers => exact .inl ⟨rfl, hanswers⟩
    | failed hfails => exact .inr ⟨rfl, rfl, hfails, exists_report hfails⟩
    | tooManyPlaces hplaces => exact absurd hplaces hasks
  · constructor
    · intro hexit
      cases hsettles with
      | answered => cases hexit
      | failed => cases hexit
      | tooManyPlaces hplaces => exact hplaces
    · intro hasks
      rw [htoo hasks]
      rfl

/-- The special values can be asked for with any number of places. -/
theorem nan_has_no_places :
    let args := ["eval", "norm([1],0)", "--precision", "18446744073709551615"]
    Arguments.read args = .ok (.run ⟨[], [], false⟩
        (.evaluate "norm([1],0)" (some 18446744073709551615) false)) ∧
      ¬ AsksTooMuch (.run ⟨[], [], false⟩
        (.evaluate "norm([1],0)" (some 18446744073709551615) false)) ∧
      (commandLine args).exitCode = 0 ∧ (commandLine args).stdout = "NaN\n" := by
  intro args
  have hread : Arguments.read args = .ok (.run ⟨[], [], false⟩
      (.evaluate "norm([1],0)" (some 18446744073709551615) false)) := by decide +kernel
  have hends : Ends ⟨[], [], false⟩ "norm([1],0)" (.ok FloatArith.nan) := by
    have hparse : Call.parse "norm([1],0)" = .ok ⟨"norm", [.vector [1.0], .number 0.0]⟩ := by
      decide +kernel
    have hnan :
        Norm.apply .integerOnly 1 [.vector [1.0], .scalar 0.0] = (FloatArith.nan : Float) := by
      decide +kernel
    rw [← hnan]
    exact ends_norm false hparse rfl rfl
  -- The value is not finite, so that no places are written.
  have hasks : ¬ AsksTooMuch (.run ⟨[], [], false⟩
      (.evaluate "norm([1],0)" (some 18446744073709551615) false)) := by
    rintro ⟨hvalue, hfinite, -⟩
    have hnan : FloatArith.exactValue (FloatArith.nan : Float) = .nan := by decide +kernel
    rw [← Except.ok.inj (hends.unique hvalue), hnan] at hfinite
    cases hfinite
  refine ⟨hread, hasks, ?_⟩
  rcases (accepted_lines_finish args _ hread).1 hasks with ⟨hexit, hanswers⟩ | ⟨-, -, hfails, -⟩
  · refine ⟨hexit, ?_⟩
    generalize (commandLine args).stdout = text at hanswers
    cases hanswers with
    | number hvalue =>
        rw [← Except.ok.inj (hends.unique hvalue)]
        decide +kernel
  · generalize (commandLine args).stderr = message at hfails
    cases hfails with
    | evaluation hfailure => cases hends.unique hfailure

/-- One written with more places than there are. -/
theorem one_with_too_many_places :
    let args := ["eval", "norm([1])", "--precision", "65536"]
    Arguments.read args =
        .ok (.run ⟨[], [], false⟩ (.evaluate "norm([1])" (some 65536) false)) ∧
      (commandLine args).exitCode = 101 ∧ (commandLine args).stdout = "" := by
  intro args
  have hread : Arguments.read args =
      .ok (.run ⟨[], [], false⟩ (.evaluate "norm([1])" (some 65536) false)) := by decide +kernel
  have hends : Ends ⟨[], [], false⟩ "norm([1])" (.ok 1.0) := by
    have hparse : Call.parse "norm([1])" = .ok ⟨"norm", [.vector [1.0]]⟩ := by decide +kernel
    have hone : Norm.apply .integerOnly 0 [.vector [1.0]] = (1.0 : Float) := by decide +kernel
    rw [← hone]
    exact ends_norm false hparse rfl rfl
  obtain ⟨places, negative, steps, depth, hplaces, hmore, hfinite⟩ :=
    not_fits_iff.mp (by decide +kernel : Result.fits (some 65536) 1.0 = false)
  cases hplaces
  have hasks := AsksTooMuch.places hends hfinite hmore
  refine ⟨hread, ?_⟩
  rw [tooManyPlaces_of_asksTooMuch hread hasks]
  exact ⟨rfl, rfl⟩

end Run

end PNorm
