import PNorm.Console.Run

/-!
# Output as it is written

`Run` says what a command line comes to as a whole.  As a process, a command writes
one line after the other, each as soon as it has it, and a failure stops it where it
stands: what was written before stays written.
-/

namespace PNorm

/-- Why a process stops before its end. -/
inductive Halt where
  | failed (message : String)
  /-- More places were asked for than a number can be written with. -/
  | tooManyPlaces
  deriving DecidableEq, Repr

/-- The outcome of a run that stops so. -/
def Halt.outcome : Halt → Outcome
  | .failed message => .failed message
  | .tooManyPlaces => .tooManyPlaces

/-- What is seen of a process that has ended. -/
structure Seen where
  exitCode : Nat
  stdout : String
  stderr : String
  deriving DecidableEq, Repr

/-- What is seen of a run with an outcome, if nothing is written before it is known. -/
def Outcome.seen (outcome : Outcome) : Seen :=
  ⟨outcome.exitCode, outcome.stdout, outcome.stderr⟩

@[simp] theorem Outcome.seen_printed (text : String) :
    (Outcome.printed text).seen = ⟨0, text, ""⟩ := rfl

@[simp] theorem Outcome.seen_failed (message : String) :
    (Outcome.failed message).seen = ⟨1, "", message⟩ := rfl

/-- A process.  It adds to the text on the standard output, also when it stops early. -/
abbrev Process (β : Type) := EStateM Halt String β

namespace Process

variable {β : Type}

/-- Write a line. -/
def printLine (line : String) : Process Unit :=
  modify (· ++ (line ++ "\n"))

/-- The result of a step, or its failure as the end of the process. -/
def require (result : Except Failure β) : Process β :=
  match result with
  | .ok value => pure value
  | .error failure => throw (.failed failure.message)

/-- What is seen of a process that starts with nothing written. -/
def seen (process : Process Unit) : Seen :=
  match process.run "" with
  | .ok _ output => ⟨0, output, ""⟩
  | .error halt output => ⟨halt.outcome.exitCode, output, halt.outcome.stderr⟩

@[simp] theorem seen_printLine (line : String) :
    (printLine line).seen = ⟨0, line ++ "\n", ""⟩ := by
  have hrun : (printLine line).run "" = .ok () ("" ++ (line ++ "\n")) := rfl
  rw [seen, hrun, String.empty_append]

@[simp] theorem seen_require_ok (value : β) (next : β → Process Unit) :
    (require (.ok value) >>= next).seen = (next value).seen := rfl

@[simp] theorem seen_require_error (failure : Failure) (next : β → Process Unit) :
    (require (.error failure) >>= next).seen = ⟨1, "", failure.message⟩ := rfl

/-- Steps that write one text each write these texts one behind the other. -/
theorem run_forM {step : β → Process Unit} {text : β → String} {items : List β}
    (hsteps : ∀ item ∈ items, ∀ output, (step item).run output = .ok () (output ++ text item))
    (output : String) :
    (items.forM step).run output = .ok () (output ++ String.join (items.map text)) := by
  induction items generalizing output with
  | nil =>
      rw [List.map_nil, String.join_nil, String.append_empty]
      rfl
  | cons item items ih =>
      rw [List.forall_mem_cons] at hsteps
      rw [List.forM_eq_forM, List.forM_cons, EStateM.run_bind, hsteps.1, List.map_cons,
        String.join_cons, ← String.append_assoc]
      exact ih hsteps.2 (output ++ text item)

/-! ## Commands -/

def eval (settings : Settings) (expression : String) (places? : Option Nat) (asDocument : Bool) :
    Process Unit := do
  let session ← require (Run.start settings)
  let value ← require (Run.evaluate session expression)
  if asDocument then
    printLine (Result.document expression value settings.policy)
  else
    match Result.plain? places? value with
    | some text => printLine text
    | none => throw .tooManyPlaces

/-- A row of a listing is written as soon as its value is known. -/
def row (session : Session Float) (expression : String) : Process Unit := do
  let value ← require (Run.evaluate session expression)
  printLine (Result.listingLine expression value)

def demo (settings : Settings) : Process Unit := do
  let session ← require (Run.start (Run.demoSettings settings))
  Run.demoExpressions.forM (row session)

/-- The line of a function: its name and its pattern. -/
def signatureLine (entry : Entry Float) : String :=
  Text.padRight 12 entry.name ++ " " ++ entry.function.signature.pattern

def signatures (settings : Settings) : Process Unit := do
  let session ← require (Run.start settings)
  session.functions.toList.forM fun entry => printLine (signatureLine entry)

/-- Carry out an accepted command line. -/
def perform : Invocation → Process Unit
  | .help topic => modify (· ++ Help.text topic)
  | .version => modify (· ++ Run.versionLine)
  | .run settings (.evaluate expression places? asDocument) =>
      eval settings expression places? asDocument
  | .run settings .demo => demo settings
  | .run settings .signatures => signatures settings
  | .run _ .nothing => throw (.failed Run.hint)

end Process

end PNorm
