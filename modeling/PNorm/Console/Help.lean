import PNorm.Console.Arguments
import PNorm.Text.Measure

/-!
# Help

What is printed where help is asked for.  A page says what the program or a command is
for, how it is used, and what can be typed; the page on the program has a short form
and a full one.  Nothing else depends on the wording or the layout of a page.
-/

namespace PNorm.Help

/-- What can be typed, and what it is for. -/
structure Row where
  typed : String
  purpose : String

/-- Rows in two columns. -/
def columns (rows : List Row) : List String :=
  let width := rows.foldl (fun width row => max width row.typed.length) 0
  rows.map fun row => "  " ++ Text.padRight width row.typed ++ "  " ++ row.purpose

/-- Rows with their purposes on lines of their own. -/
def stacked (rows : List Row) : List String :=
  ["\n\n".intercalate (rows.map fun row => "  " ++ row.typed ++ "\n          " ++ row.purpose)]

/-- A page.  Its sections stand in their order, each under its title. -/
def page (about usage : String) (sections : List (String × List String)) : String :=
  let blocks := sections.map fun (title, lines) => "\n".intercalate (title :: lines)
  "\n\n".intercalate (about :: ("Usage: " ++ usage) :: blocks) ++ "\n"

def rowOf : CommandWord → Row
  | .name .eval => ⟨"eval", "Evaluate an expression"⟩
  | .name .demo =>
      ⟨"demo", "Print the reference listing for x = [1, 2, 3, 4] and y = 2x + 1"⟩
  | .name .signatures =>
      ⟨"signatures", "List registered functions and their accepted call shapes"⟩
  | .help => ⟨"help", "Print this message or the help of the given subcommand(s)"⟩

def commandRows : List Row :=
  [.name .eval, .name .demo, .name .signatures, .help].map rowOf

def verbose : Row := ⟨"-v, --verbose...", "Increase log verbosity (-v debug, -vv trace)"⟩

/-- The options of both levels but `--verbose`. -/
def bindingRows : List Row :=
  [⟨"    --vector <NAME=V1,V2,...>", "Bind a vector, e.g. `--vector x=1,2,3,4`"⟩,
   ⟨"    --scalar <NAME=VALUE>", "Bind a scalar, e.g. `--scalar p=3`"⟩,
   ⟨"    --fractional-exponents", "Accept non-integral exponents >= 1"⟩]

/-- The page on the program. -/
def program (inFull : Bool) : String :=
  let lines := if inFull then stacked else columns
  let about := if inFull then
      "vecnorm\n\nEvaluates calls such as `norm(x)` or `norm(x, 3)` against vectors and scalars " ++
        "bound on the command\nline."
    else "Evaluate generalized vector norms"
  let help := if inFull then "Print help (see a summary with '-h')"
    else "Print help (see more with '--help')"
  let options := verbose :: bindingRows ++
    [⟨"-h, --help", help⟩, ⟨"-V, --version", "Print version"⟩]
  page about "vecnorm [OPTIONS] [EXPR] [COMMAND]"
    [("Commands:", columns commandRows),
     ("Arguments:", lines [⟨"[EXPR]", "Expression to evaluate"⟩]),
     ("Options:", lines options)]

def help : Row := ⟨"-h, --help", "Print help"⟩

/-- The page on a command word. -/
def word (w : CommandWord) : String :=
  let row := rowOf w
  let usage := "vecnorm " ++ row.typed
  match w with
  | .name .eval =>
      let options := ⟨"    --precision <PRECISION>", "Digits after the decimal point"⟩ :: verbose ::
        ⟨"    --json", "Output as JSON"⟩ :: bindingRows ++ [help]
      page row.purpose (usage ++ " [OPTIONS] <EXPRESSION>")
        [("Arguments:", columns [⟨"<EXPRESSION>", "Expression to evaluate"⟩]),
         ("Options:", columns options)]
  | .name _ =>
      page row.purpose (usage ++ " [OPTIONS]")
        [("Options:", columns (verbose :: bindingRows ++ [help]))]
  | .help =>
      page row.purpose (usage ++ " [COMMAND]...")
        [("Arguments:", columns [⟨"[COMMAND]...", "Print help for the subcommand(s)"⟩])]

/-- The text that is printed on a topic. -/
def text : HelpTopic → String
  | .program inFull => program inFull
  | .word w => word w

end PNorm.Help
