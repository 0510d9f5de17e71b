import PNorm.Call.Attempts
import PNorm.Call.Basic
import PNorm.Call.Token

/-!
# Reading a call

The grammar of calls over lexemes:

```text
program    = call finish
call       = identifier "(" arg ("," arg)* ")"
arg        = vector | number | identifier
vector     = "[" (number ("," number)*)? "]"
number     = a numeral or a numeric keyword
identifier = a word
```

Each rule is a function that takes the lexemes and the record of refusals, and
returns the rest of the lexemes if it succeeds and the new record in both cases.
Alternatives are tried in order.  A repetition ends before the comma that has no
item after it, and the rule around it then fails at that comma.
-/

namespace PNorm

namespace Call

/-- The outcome of a rule: what it read and the rest, or nothing; and the record of refusals. -/
abbrev Reading (β : Type) := Option (β × List Lexeme) × Attempts

/-- The offset of the next lexeme. -/
def nextOffset : List Lexeme → Nat
  | [] => 0
  | lexeme :: _ => lexeme.offset

/-- Try a rule, and record a refusal. -/
def attempt {β : Type} (rule : Rule) (body : List Lexeme → Attempts → Reading β)
    (input : List Lexeme) (seen : Attempts) : Reading β :=
  match body input seen with
  | (some result, after) => (some result, after)
  | (none, after) =>
      (none, after.refuse rule (nextOffset input) (seen.countAt (nextOffset input)))

/-! ## Rules of one lexeme -/

/-- Take the mark `c` and return `result`.  Marks are not recorded. -/
def mark {β : Type} (c : Char) (result : β) (input : List Lexeme) (seen : Attempts) : Reading β :=
  match input with
  | [] => (none, seen)
  | lexeme :: rest =>
      if lexeme.token = .mark c then (some (result, rest), seen) else (none, seen)

/-- Take one lexeme that `read` accepts. -/
def single {β : Type} (rule : Rule) (read : Token → Option β) :
    List Lexeme → Attempts → Reading β :=
  attempt rule fun input seen =>
    match input with
    | [] => (none, seen)
    | lexeme :: rest => ((read lexeme.token).map fun value => (value, rest), seen)

/-- The rule `number`. -/
def number : List Lexeme → Attempts → Reading Float :=
  single .number Token.number?

/-- The rule `identifier`. -/
def identifier : List Lexeme → Attempts → Reading String :=
  single .identifier fun
    | .word text => some (String.ofList text)
    | _ => none

/-- The end of the text. -/
def finish : List Lexeme → Attempts → Reading Unit :=
  single .finish fun
    | .finish => some ()
    | _ => none

theorem attempt_eq_some {β : Type} {rule : Rule} {body : List Lexeme → Attempts → Reading β}
    {input : List Lexeme} {seen after : Attempts} {result : β × List Lexeme}
    (h : attempt rule body input seen = (some result, after)) :
    body input seen = (some result, after) := by
  unfold attempt at h
  rcases hbody : body input seen with ⟨_ | found, middle⟩ <;> rw [hbody] at h
  · cases h
  · exact h

theorem length_lt_of_mark {β : Type} {c : Char} {result : β} {input rest : List Lexeme}
    {seen after : Attempts} {value : β}
    (h : mark c result input seen = (some (value, rest), after)) : rest.length < input.length := by
  cases input with
  | nil => simp [mark] at h
  | cons lexeme tail =>
      simp only [mark] at h
      split at h <;> simp_all

theorem length_lt_of_single {β : Type} {rule : Rule} {read : Token → Option β}
    {input rest : List Lexeme} {seen after : Attempts} {value : β}
    (h : single rule read input seen = (some (value, rest), after)) :
    rest.length < input.length := by
  have hbody := attempt_eq_some h
  cases input with
  | nil => simp at hbody
  | cons lexeme tail =>
      simp only [Prod.mk.injEq, Option.map_eq_some_iff] at hbody
      obtain ⟨⟨_, _, _, rfl⟩, _⟩ := hbody
      simp

/-! ## Vectors -/

/-- A repetition of a comma and a number. -/
def moreNumbers (input : List Lexeme) (seen : Attempts) :
    List Float × List Lexeme × Attempts :=
  match _ : mark ',' () input seen with
  | (none, after) => ([], input, after)
  | (some (_, item), after) =>
      match _ : number item after with
      -- No number follows, so the comma is given back.
      | (none, after) => ([], input, after)
      | (some (value, rest), after) =>
          let (values, rest, after) := moreNumbers rest after
          (value :: values, rest, after)
termination_by input.length
decreasing_by
  rename_i hmark hnumber
  exact Nat.lt_trans (length_lt_of_single hnumber) (length_lt_of_mark hmark)

/-- The rule `vector`. -/
def vector : List Lexeme → Attempts → Reading (List Float) :=
  attempt .vector fun input seen =>
    match mark '[' () input seen with
    | (none, after) => (none, after)
    | (some (_, inner), after) =>
        match number inner after with
        | (none, after) => mark ']' [] inner after
        | (some (value, rest), after) =>
            let (values, rest, after) := moreNumbers rest after
            mark ']' (value :: values) rest after

/-! ## Arguments -/

/-- The rule `arg`. -/
def argument : List Lexeme → Attempts → Reading Argument :=
  attempt .arg fun input seen =>
    match vector input seen with
    | (some (values, rest), after) => (some (.vector values, rest), after)
    | (none, after) =>
        match number input after with
        | (some (value, rest), after) => (some (.number value, rest), after)
        | (none, after) =>
            match identifier input after with
            | (some (name, rest), after) => (some (.identifier name, rest), after)
            | (none, after) => (none, after)

theorem length_moreNumbers_le (input : List Lexeme) (seen : Attempts) :
    (moreNumbers input seen).2.1.length ≤ input.length := by
  fun_induction moreNumbers input seen with
  | case1 => exact Nat.le_refl _
  | case2 => exact Nat.le_refl _
  | case3 input seen _ item after hmark value rest after' hnumber values rest' after'' heq ih =>
      rw [heq] at ih
      exact Nat.le_trans ih (Nat.le_of_lt
        (Nat.lt_trans (length_lt_of_single hnumber) (length_lt_of_mark hmark)))

theorem length_lt_of_vector {input rest : List Lexeme} {seen after : Attempts} {values : List Float}
    (h : vector input seen = (some (values, rest), after)) : rest.length < input.length := by
  have hbody := attempt_eq_some h
  rcases hopen : mark '[' () input seen with ⟨_ | ⟨_, inner⟩, middle⟩ <;>
    simp only [hopen] at hbody
  · cases hbody
  · have hinner := length_lt_of_mark hopen
    rcases hnumber : number inner middle with ⟨_ | ⟨value, more⟩, last⟩ <;>
      simp only [hnumber] at hbody
    · exact Nat.lt_trans (length_lt_of_mark hbody) hinner
    · exact Nat.lt_trans (Nat.lt_of_lt_of_le (length_lt_of_mark hbody) (length_moreNumbers_le _ _))
        (Nat.lt_trans (length_lt_of_single hnumber) hinner)

theorem length_lt_of_argument {input rest : List Lexeme} {seen after : Attempts} {arg : Argument}
    (h : argument input seen = (some (arg, rest), after)) : rest.length < input.length := by
  have hbody := attempt_eq_some h
  -- The alternatives in their order: each is tried only when those before it took nothing.
  rcases hvector : vector input seen with ⟨_ | ⟨values, stop⟩, middle⟩ <;>
    simp only [hvector] at hbody
  · rcases hnumber : number input middle with ⟨_ | ⟨value, stop⟩, last⟩ <;>
      simp only [hnumber] at hbody
    · rcases hidentifier : identifier input last with ⟨_ | ⟨name, stop⟩, final⟩ <;>
        simp only [hidentifier] at hbody
      · cases hbody
      · cases hbody
        exact length_lt_of_single hidentifier
    · cases hbody
      exact length_lt_of_single hnumber
  · cases hbody
    exact length_lt_of_vector hvector

/-- A repetition of a comma and an argument. -/
def moreArguments (input : List Lexeme) (seen : Attempts) :
    List Argument × List Lexeme × Attempts :=
  match _ : mark ',' () input seen with
  | (none, after) => ([], input, after)
  | (some (_, item), after) =>
      match _ : argument item after with
      -- No argument follows, so the comma is given back.
      | (none, after) => ([], input, after)
      | (some (arg, rest), after) =>
          let (args, rest, after) := moreArguments rest after
          (arg :: args, rest, after)
termination_by input.length
decreasing_by
  rename_i hmark hargument
  exact Nat.lt_trans (length_lt_of_argument hargument) (length_lt_of_mark hmark)

/-! ## Calls -/

/-- The rule `call`. -/
def call : List Lexeme → Attempts → Reading Call :=
  attempt .call fun input seen =>
    match identifier input seen with
    | (none, after) => (none, after)
    | (some (name, rest), after) =>
        match mark '(' () rest after with
        | (none, after) => (none, after)
        | (some (_, rest), after) =>
            match argument rest after with
            | (none, after) => (none, after)
            | (some (arg, rest), after) =>
                let (args, rest, after) := moreArguments rest after
                mark ')' ⟨name, arg :: args⟩ rest after

/-- The rule `program`, tried at the start of the text, before any spaces. -/
def program (input : List Lexeme) : Option Call × Attempts :=
  match call input Attempts.none with
  | (none, after) => (none, after.refuse .program 0 0)
  | (some (result, rest), after) =>
      match finish rest after with
      | (none, after) => (none, after.refuse .program 0 0)
      | (some _, after) => (some result, after)

/-- Why a text is no call: at `offset` one of `expected` was needed. -/
structure Refusal where
  source : List Char
  offset : Nat
  expected : List Rule
  deriving DecidableEq, Repr

/-- Read a source text as a call. -/
def parse (source : String) : Except Refusal Call :=
  match program (lexemes source.toList) with
  | (some result, _) => .ok result
  | (none, seen) => .error ⟨source.toList, seen.offset, seen.expected⟩

end Call

end PNorm
