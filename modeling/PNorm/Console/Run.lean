import PNorm.Console.Help
import PNorm.Console.Result
import PNorm.Session.Evaluate

/-!
# Running a command line

A command line is run in a fresh session of doubles: the built-in functions are
added, then the vectors in their order, then the scalars in theirs.  Whatever
fails first is reported with what was being done, and nothing is printed before
everything has succeeded.
-/

namespace PNorm

/-- What was being done when an error came up. -/
inductive Activity where
  | addingBuiltins
  | bindingVector (name : String)
  | bindingScalar (name : String)
  | evaluating (expression : String)
  deriving DecidableEq, Repr

def Activity.message : Activity → String
  | .addingBuiltins => "registering builtins"
  | .bindingVector name => s!"binding vector '{name}'"
  | .bindingScalar name => s!"binding scalar '{name}'"
  | .evaluating expression => s!"evaluating '{expression}'"

/-- An error of the session, and what was being done. -/
structure Failure where
  activity : Activity
  cause : SessionError
  deriving DecidableEq, Repr

namespace Failure

/-- A text whose lines are indented by four spaces, the later ones only if they are not empty. -/
def indented (text : String) : List Char :=
  match text.toList.splitOn '\n' with
  | [] => []
  | first :: rest =>
      "    ".toList ++ first ++ rest.flatMap fun line =>
        '\n' :: (if line = [] then [] else "    ".toList ++ line)

def message (f : Failure) : String :=
  let cause := String.ofList (indented f.cause.message)
  s!"Error: {f.activity.message}\n\nCaused by:\n{cause}\n"

end Failure

/-- How a run ends. -/
inductive Outcome where
  | printed (text : String)
  | failed (message : String)
  | refused (error : UsageError)
  /-- More places were asked for than a number can be written with. -/
  | tooManyPlaces
  deriving DecidableEq, Repr

namespace Outcome

/-- The exit code. -/
def exitCode : Outcome → Nat
  | .printed _ => 0
  | .failed _ => 1
  | .refused _ => 2
  | .tooManyPlaces => 101

/-- What is written to the standard output. -/
def stdout : Outcome → String
  | .printed text => text
  | _ => ""

/-- What is written to the standard error, apart from the log.  The wording is free where a line is
refused and where there are too many places; a failure has its report. -/
def stderr : Outcome → String
  | .printed _ => ""
  | .failed message => message
  | .refused error => s!"error: {error.message}\n"
  | .tooManyPlaces => "error: too many places\n"

end Outcome

namespace Run

/-! ## The session -/

/-- Name what was being done when an error came up. -/
def during {β : Type} (activity : Activity) (result : Except SessionError β) : Except Failure β :=
  result.mapError fun cause => ⟨activity, cause⟩

def bindVectors (s : Session Float) : List VectorBinding → Except Failure (Session Float)
  | [] => .ok s
  | binding :: rest =>
      match during (.bindingVector binding.name) (s.addVector binding.name binding.values) with
      | .error failure => .error failure
      | .ok (_, s) => bindVectors s rest

def bindScalars (s : Session Float) : List ScalarBinding → Except Failure (Session Float)
  | [] => .ok s
  | binding :: rest =>
      match during (.bindingScalar binding.name) (s.addScalar binding.name binding.value) with
      | .error failure => .error failure
      | .ok (_, s) => bindScalars s rest

/-- The session that a command starts with. -/
def start (settings : Settings) : Except Failure (Session Float) :=
  match during .addingBuiltins (Session.empty.addBuiltins settings.policy) with
  | .error failure => .error failure
  | .ok s =>
      match bindVectors s settings.vectors with
      | .error failure => .error failure
      | .ok s => bindScalars s settings.scalars

def evaluate (s : Session Float) (expression : String) : Except Failure Float :=
  during (.evaluating expression) (s.evaluate expression)

/-! ## Commands -/

/-- Print the result of a run, or its failure. -/
def print : Except Failure String → Outcome
  | .ok text => .printed text
  | .error failure => .failed failure.message

/-- The command `eval`. -/
def eval (settings : Settings) (expression : String) (places? : Option Nat) (asDocument : Bool) :
    Outcome :=
  match (start settings).bind (evaluate · expression) with
  | .error failure => .failed failure.message
  | .ok value =>
      if asDocument then
        .printed (Result.document expression value settings.policy ++ "\n")
      else
        match Result.plain? places? value with
        | some text => .printed (text ++ "\n")
        | none => .tooManyPlaces

/-- The vectors of the demonstration: `x`, and `y = 2 * x + 1`. -/
def demoVectors : List VectorBinding :=
  let x := [1.0, 2.0, 3.0, 4.0]
  [⟨"x", x⟩, ⟨"y", x.map fun v => 2.0 * v + 1.0⟩]

/-- The expressions of the demonstration. -/
def demoExpressions : List String :=
  ["norm(x)", "norm(x,1)", "norm(x,2)", "norm(x,3)", "norm(x,4)", "norm(x,5)",
   "norm(y)", "norm(y,1)", "norm(y,2)", "norm(y,3)", "norm(y,4)", "norm(y,5)"]

/-- The settings with the vectors of the demonstration, which replace vectors of the same name. -/
def demoSettings (settings : Settings) : Settings :=
  { settings with
    vectors := settings.vectors.filter (fun b => b.name != "x" && b.name != "y") ++ demoVectors }

/-- The lines of a listing. -/
def listing (s : Session Float) : List String → Except Failure String
  | [] => .ok ""
  | expression :: rest =>
      match evaluate s expression with
      | .error failure => .error failure
      | .ok value =>
          match listing s rest with
          | .error failure => .error failure
          | .ok more => .ok (Result.listingLine expression value ++ "\n" ++ more)

/-- The command `demo`. -/
def demo (settings : Settings) : Outcome :=
  print ((start (demoSettings settings)).bind (listing · demoExpressions))

/-- The command `signatures`: a line for every function, with its name and its pattern. -/
def signatures (settings : Settings) : Outcome :=
  print ((start settings).map fun s =>
    String.join (s.functions.toList.map fun entry =>
      Text.padRight 12 entry.name ++ " " ++ entry.function.signature.pattern ++ "\n"))

/-- What is said when there is nothing to do. -/
def hint : String :=
  "Error: No input provided.\n\nUsage: vecnorm <COMMAND> or vecnorm <EXPR>\n\n" ++
    "Try 'vecnorm --help' for more information.\n"

/-- The name and the version of the program. -/
def versionLine : String := "vecnorm 0.2.1\n"

/-- Run a command line. -/
def commandLine (args : List String) : Outcome :=
  match Arguments.read args with
  | .error error => .refused error
  | .ok (.help topic) => .printed (Help.text topic)
  | .ok .version => .printed versionLine
  | .ok (.run settings command) =>
      match command with
      | .evaluate expression places? asDocument => eval settings expression places? asDocument
      | .demo => demo settings
      | .signatures => signatures settings
      | .nothing => .failed hint

end Run

end PNorm
