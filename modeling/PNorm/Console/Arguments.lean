import PNorm.Console.Binding
import PNorm.Norm.Exponent

/-!
# The command line

```text
vecnorm [EXPR] [eval EXPRESSION [--precision N] [--json] | demo | signatures]
vecnorm help [COMMAND]
```

The options `--vector`, `--scalar`, `--fractional-exponents` and `--verbose`
(`-v`) are understood before and after the command; what is given after it
replaces what the same option was given before.  An option takes its value from
behind an equals sign or from the next argument.  Behind `--` every argument is
an expression.

Arguments are read from left to right, and the first that cannot be accepted
makes the whole line a usage error.  A request for help (`--help`, `-h` or the
word `help`) or for the version (`--version`, `-V`) ends the reading where it
stands, so what is behind it is not looked at.
-/

namespace PNorm

-- Powers of natural numbers are those of the core library, whatever else is imported.
attribute [local instance (high)] instPowNat

inductive CommandName where
  | eval
  | demo
  | signatures
  deriving DecidableEq, Repr

/-- The words that are never an expression where a command can stand: the names of the commands, and
`help`, which explains them. -/
inductive CommandWord where
  | name (command : CommandName)
  | help
  deriving DecidableEq, Repr

/-- The word that an argument is. -/
def CommandWord.ofName? (arg : String) : Option CommandWord :=
  if arg = "eval" then some (.name .eval)
  else if arg = "demo" then some (.name .demo)
  else if arg = "signatures" then some (.name .signatures)
  else if arg = "help" then some .help
  else none

/-- What a session on the command line starts with. -/
structure Settings where
  vectors : List VectorBinding
  scalars : List ScalarBinding
  fractional : Bool
  deriving DecidableEq, Repr

/-- The exponents that are accepted under the settings. -/
def Settings.policy (s : Settings) : ExponentPolicy :=
  if s.fractional then .allowFractional else .integerOnly

/-- What is to be done. -/
inductive Command where
  | evaluate (expression : String) (places? : Option Nat) (asDocument : Bool)
  | demo
  | signatures
  /-- No command and no expression was given. -/
  | nothing
  deriving DecidableEq, Repr

/-- What is explained where help is asked for. -/
inductive HelpTopic where
  /-- The program, in full or in short. -/
  | program (inFull : Bool)
  | word (word : CommandWord)
  deriving DecidableEq, Repr

/-- An accepted command line. -/
inductive Invocation where
  | run (settings : Settings) (command : Command)
  | help (topic : HelpTopic)
  | version
  deriving DecidableEq, Repr

/-- Why a command line cannot be accepted. -/
inductive UsageError where
  /-- An argument that is no option of its level, or an expression too many. -/
  | unexpected (arg : String)
  | missingExpression
  | missingValue (option : String)
  | badBinding (defect : BindingError)
  | badPrecision (text : String)
  | repeated (option : String)
  deriving DecidableEq, Repr

/-- A text for the user.  Its wording is free: what counts is that the line is refused, with nothing
on the standard output. -/
def UsageError.message : UsageError → String
  | .unexpected arg => s!"unexpected argument '{arg}'"
  | .missingExpression => "an expression is required"
  | .missingValue option => s!"a value is required for '--{option}'"
  | .badBinding defect => defect.message
  | .badPrecision text => s!"invalid precision '{text}'"
  | .repeated option => s!"'--{option}' cannot be used more than once"

namespace Arguments

/-! ## One level

The arguments in front of the command are one level and those behind it another.
-/

/-- What was given at one level. -/
structure Given where
  expression : Option String := none
  settings : Settings := ⟨[], [], false⟩
  places? : Option Nat := none
  asDocument : Bool := false
  deriving DecidableEq, Repr

/-- A level is in front of the command, or behind the command it belongs to. -/
inductive Level where
  | front
  | behind (command : CommandName)
  deriving DecidableEq, Repr

/-- Whether a level takes an expression. -/
def Level.takesExpression : Level → Bool
  | .front => true
  | .behind command => command = .eval

/-- Accept an expression, if the level takes one and has none yet. -/
def giveExpression (level : Level) (given : Given) (expression : String) :
    Except UsageError Given :=
  if level.takesExpression && given.expression.isNone then
    .ok { given with expression := some expression }
  else .error (.unexpected expression)

/-- Accept the arguments behind `--`. -/
def giveExpressions (level : Level) (given : Given) : List String → Except UsageError Given
  | [] => .ok given
  | arg :: rest =>
      match giveExpression level given arg with
      | .error error => .error error
      | .ok given => giveExpressions level given rest

/-- The number of places that a text asks for: digits with an optional plus sign, below
`2 ^ 64`. -/
def places? (text : List Char) : Option Nat :=
  let digits := match text with
    | '+' :: rest => rest
    | cs => cs
  let places := Nat.ofDigitChars 10 digits 0
  if digits ≠ [] ∧ digits.all Char.isDigit ∧ places < 2 ^ (64 : Nat) then some places else none

/-- The options that take a value. -/
inductive ValueOption where
  | vector
  | scalar
  | precision
  deriving DecidableEq, Repr

/-- The option of a name with a value, at a level. -/
def ValueOption.ofName? (level : Level) (name : List Char) : Option ValueOption :=
  if name = "vector".toList then some .vector
  else if name = "scalar".toList then some .scalar
  else if name = "precision".toList ∧ level = .behind .eval then some .precision
  else none

/-- Accept the value of an option.  Bindings add up; a precision is given once. -/
def giveValue (given : Given) (option : ValueOption) (value : String) : Except UsageError Given :=
  let settings := given.settings
  match option with
  | .vector =>
      match Binding.readVector value with
      | .error defect => .error (.badBinding defect)
      | .ok binding =>
          .ok { given with settings := { settings with vectors := settings.vectors ++ [binding] } }
  | .scalar =>
      match Binding.readScalar value with
      | .error defect => .error (.badBinding defect)
      | .ok binding =>
          .ok { given with settings := { settings with scalars := settings.scalars ++ [binding] } }
  | .precision =>
      match given.places?, places? value.toList with
      | some _, _ => .error (.repeated "precision")
      | none, none => .error (.badPrecision value)
      | none, some places => .ok { given with places? := some places }

/-- The options that take no value. -/
inductive Flag where
  | verbose
  | fractional
  | json
  | help
  | version
  deriving DecidableEq, Repr

/-- The flag of a name, at a level. -/
def Flag.ofName? (level : Level) (name : List Char) : Option Flag :=
  if name = "verbose".toList then some .verbose
  else if name = "fractional-exponents".toList then some .fractional
  else if name = "json".toList ∧ level = .behind .eval then some .json
  else if name = "help".toList then some .help
  else if name = "version".toList ∧ level = .front then some .version
  else none

/-- The flag of a letter, at a level. -/
def Flag.ofLetter? (level : Level) (letter : Char) : Option Flag :=
  if letter = 'v' then some .verbose
  else if letter = 'h' then some .help
  else if letter = 'V' ∧ level = .front then some .version
  else none

/-- What a flag can ask for in place of what the line would do. -/
inductive Request where
  | help
  | version
  deriving DecidableEq, Repr

/-- What reading a level comes to: what was given and the arguments behind a command word, if there
is one; or a request, which was made by its name or by its letter. -/
inductive Reading where
  | done (given : Given) (word? : Option (CommandWord × List String))
  | asked (request : Request) (byName : Bool)
  deriving DecidableEq, Repr

/-- Accept a flag, or the request that it makes.  Only `verbose` may be repeated. -/
def giveFlag (given : Given) : Flag → Except UsageError (Given ⊕ Request)
  | .verbose => .ok (.inl given)
  | .fractional =>
      if given.settings.fractional then .error (.repeated "fractional-exponents")
      else .ok (.inl { given with settings := { given.settings with fractional := true } })
  | .json =>
      if given.asDocument then .error (.repeated "json")
      else .ok (.inl { given with asDocument := true })
  | .help => .ok (.inr .help)
  | .version => .ok (.inr .version)

/-- Accept the letters of an argument such as `-vv`, up to the first that makes a request. -/
def giveLetters (level : Level) (given : Given) :
    List Char → Except UsageError (Given ⊕ Request)
  | [] => .ok (.inl given)
  | letter :: rest =>
      match Flag.ofLetter? level letter with
      | none => .error (.unexpected (String.singleton letter))
      | some flag =>
          match giveFlag given flag with
          | .error error => .error error
          | .ok (.inr request) => .ok (.inr request)
          | .ok (.inl given) => giveLetters level given rest

/-- The form of an argument. -/
inductive Form where
  /-- The argument `--`. -/
  | separator
  /-- A name behind two hyphens, with the value behind an equals sign if there is one. -/
  | long (name : List Char) (value? : Option (List Char))
  /-- Letters behind one hyphen. -/
  | short (letters : List Char)
  | plain
  deriving DecidableEq, Repr

/-- The form of an argument.  A single hyphen is plain. -/
def formOf (arg : String) : Form :=
  match arg.toList with
  | ['-', '-'] => .separator
  | '-' :: '-' :: long =>
      match long.dropWhile (· != '=') with
      | [] => .long long none
      | _ :: value => .long (long.takeWhile (· != '=')) (some value)
  | '-' :: c :: letters => .short (c :: letters)
  | _ => .plain

/-- Read the arguments of a level. -/
def readLevel (level : Level) (given : Given) : List String → Except UsageError Reading
  | [] => .ok (.done given none)
  | arg :: rest =>
      -- A command word is a command even where an expression could stand.
      match (if level = .front then CommandWord.ofName? arg else none) with
      | some word => .ok (.done given (some (word, rest)))
      | none =>
          match formOf arg with
          | .separator => (giveExpressions level given rest).map (.done · none)
          | .plain =>
              match giveExpression level given arg with
              | .error error => .error error
              | .ok given => readLevel level given rest
          | .short letters =>
              match giveLetters level given letters with
              | .error error => .error error
              | .ok (.inr request) => .ok (.asked request false)
              | .ok (.inl given) => readLevel level given rest
          | .long name value? =>
              match ValueOption.ofName? level name, value? with
              | some option, some value =>
                  match giveValue given option (String.ofList value) with
                  | .error error => .error error
                  | .ok given => readLevel level given rest
              | some option, none =>
                  match rest with
                  | [] => .error (.missingValue (String.ofList name))
                  | value :: rest =>
                      if formOf value = .plain then
                        match giveValue given option value with
                        | .error error => .error error
                        | .ok given => readLevel level given rest
                      else .error (.missingValue (String.ofList name))
              | none, some _ => .error (.unexpected arg)
              | none, none =>
                  match Flag.ofName? level name with
                  | none => .error (.unexpected arg)
                  | some flag =>
                      match giveFlag given flag with
                      | .error error => .error error
                      | .ok (.inr request) => .ok (.asked request true)
                      | .ok (.inl given) => readLevel level given rest

/-! ## Both levels -/

/-- The settings that hold after both levels: each option as it was given behind the command, or
else in front of it. -/
def joinSettings (front behind : Settings) : Settings where
  vectors := if behind.vectors = [] then front.vectors else behind.vectors
  scalars := if behind.scalars = [] then front.scalars else behind.scalars
  fractional := front.fractional || behind.fractional

/-- The command that the name of a command and what was given behind it come to. -/
def commandOf (name : CommandName) (given : Given) : Except UsageError Command :=
  match name, given.expression with
  | .eval, some expression => .ok (.evaluate expression given.places? given.asDocument)
  | .eval, none => .error .missingExpression
  | .demo, _ => .ok .demo
  | .signatures, _ => .ok .signatures

/-- What a request at a level comes to. -/
def Request.invocation (level : Level) (byName : Bool) : Request → Invocation
  | .version => .version
  | .help =>
      match level with
      | .front => .help (.program byName)
      | .behind name => .help (.word (.name name))

/-- The topic that is named behind `help`, which is at most one word. -/
def topicOf : List String → Except UsageError HelpTopic
  | [] => .ok (.program true)
  | arg :: rest =>
      match CommandWord.ofName? arg, rest with
      | some word, [] => .ok (.word word)
      | some _, next :: _ => .error (.unexpected next)
      | none, _ => .error (.unexpected arg)

/-- Read a command line.  An expression in front of a command is not used. -/
def read (args : List String) : Except UsageError Invocation :=
  match readLevel .front {} args with
  | .error error => .error error
  | .ok (.asked request byName) => .ok (request.invocation .front byName)
  | .ok (.done front none) =>
      match front.expression with
      | some expression => .ok (.run front.settings (.evaluate expression none false))
      | none => .ok (.run front.settings .nothing)
  | .ok (.done _ (some (.help, rest))) =>
      match topicOf rest with
      | .error error => .error error
      | .ok topic => .ok (.help topic)
  | .ok (.done front (some (.name name, rest))) =>
      match readLevel (.behind name) {} rest with
      | .error error => .error error
      | .ok (.asked request byName) => .ok (request.invocation (.behind name) byName)
      | .ok (.done behind _) =>
          match commandOf name behind with
          | .error error => .error error
          | .ok command => .ok (.run (joinSettings front.settings behind.settings) command)

end Arguments

end PNorm
