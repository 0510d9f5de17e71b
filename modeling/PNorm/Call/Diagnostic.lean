import PNorm.Call.Reader

/-!
# The message of a refusal

A refusal is shown as an excerpt of the source: the line that holds the
offset, a mark under the place, and what was expected there.  Lines and columns
count from one, columns in characters.
-/

namespace PNorm

/-- A list in words: `a`, `a or b`, `a, b, or c`. -/
def enumerate : List String → String
  | [] => ""
  | [a] => a
  | [a, b] => s!"{a} or {b}"
  | items => String.intercalate ", " items.dropLast ++ ", or " ++ items.getLastD ""

namespace Call.Refusal

variable (r : Refusal)

/-- The part of the line in front of the offset. -/
def lineBefore : List Char :=
  ((r.source.take r.offset).reverse.takeWhile (· != '\n')).reverse

/-- The number of the line that holds the offset. -/
def line : Nat :=
  1 + (r.source.take r.offset).count '\n'

/-- The column of the offset. -/
def column : Nat :=
  1 + r.lineBefore.length

/-- The whole line, with its line feed if it has one. -/
def wholeLine : List Char :=
  let rest := r.source.drop r.offset
  r.lineBefore ++ rest.takeWhile (· != '\n') ++ (rest.dropWhile (· != '\n')).take 1

/-- The line as it is shown.  Line ends are left out, unless the offset stands on one: then they are
shown as pictures. -/
def shownLine : List Char :=
  match r.source[r.offset]? with
  | some '\n' | some '\r' =>
      r.wholeLine.map fun
        | '\r' => '␍'
        | '\n' => '␊'
        | c => c
  | _ => r.wholeLine.filter fun c => c != '\r' && c != '\n'

/-- The characters under the line up to the mark.  Tabs are kept, so that the mark stands under its
place whatever their width. -/
def indent : List Char :=
  (r.shownLine.take (r.column - 1)).map fun c => if c = '\t' then '\t' else ' '

/-- The message. -/
def message : String :=
  let number := toString r.line
  let margin := String.ofList (List.replicate number.length ' ')
  let shown := String.ofList r.shownLine
  let under := String.ofList r.indent
  let wanted := enumerate (r.expected.map Rule.name)
  String.intercalate "\n"
    [s!"{margin}--> {number}:{r.column}",
     s!"{margin} |",
     s!"{number} | {shown}",
     s!"{margin} | {under}^---",
     s!"{margin} |",
     s!"{margin} = expected {wanted}"]

end Call.Refusal

end PNorm
