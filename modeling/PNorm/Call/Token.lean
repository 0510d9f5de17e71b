import PNorm.Number.Numeral
import PNorm.Text.Blank

/-!
# The words of a call

A source text is cut into lexemes: words, numerals and single marks, with any
spaces between them, each with the offset where it starts.  Offsets count
characters.  The list always closes with `finish` at the end of the text.

A word is taken whole, so that a longer word which starts like a numeric keyword
is not cut in two.  Whether `NaN` is a number or a name is decided by its place
in the call and not here.
-/

namespace PNorm

/-- Letters and underscores of ASCII start a word. -/
def isWordStart (c : Char) : Bool :=
  c.isAlpha || c == '_'

/-- Letters, digits and underscores of ASCII continue a word. -/
def isWordPart (c : Char) : Bool :=
  c.isAlphanum || c == '_'

/-- The keywords that spell numbers. -/
def keyword? (negative : Bool) (word : List Char) : Option Numeral :=
  if word = "NaN".toList then some .nan
  else if word = "inf".toList ∨ word = "Infinity".toList then some (.infinite negative)
  else none

/-- The smallest parts of a source text. -/
inductive Token where
  | word (text : List Char)
  | numeral (value : Numeral)
  | mark (c : Char)
  | finish
  deriving DecidableEq, Repr

/-- A token and where it starts. -/
structure Lexeme where
  offset : Nat
  token : Token
  deriving DecidableEq, Repr

namespace Token

/-- The numeral at the front of a text, and its size: an optional sign, then a keyword or a
decimal. -/
def scanNumeral (cs : List Char) : Option (Numeral × Nat) :=
  let (negative, signSize) := Numeral.scanSign cs
  let unsigned := cs.drop signSize
  let word := unsigned.takeWhile isWordPart
  match keyword? negative word with
  | some value => some (value, signSize + word.length)
  | none =>
      (Numeral.scanDecimal unsigned).map fun scanned =>
        (.decimal negative scanned.significand scanned.exponent, signSize + scanned.size)

/-- The token at the front of a text that starts with `c`, and its size. -/
def scan (c : Char) (rest : List Char) : Token × Nat :=
  if isWordStart c then
    let text := (c :: rest).takeWhile isWordPart
    (.word text, text.length)
  else
    match scanNumeral (c :: rest) with
    | some (value, size) => (.numeral value, size)
    | none => (.mark c, 1)

/-- The number that a token spells, if it does. -/
def number? : Token → Option Float
  | .numeral value => some value.toFloat
  | .word text => (keyword? false text).map Numeral.toFloat
  | _ => none

end Token

/-- The lexemes of a text that starts at `offset`. -/
def lexemesFrom (offset : Nat) : List Char → List Lexeme
  | [] => [⟨offset, .finish⟩]
  | c :: rest =>
      if Text.isSpace c then lexemesFrom (offset + 1) rest
      else
        let (token, size) := Token.scan c rest
        ⟨offset, token⟩ :: lexemesFrom (offset + size) (rest.drop (size - 1))
termination_by cs => cs.length
decreasing_by
  · simp
  · simp only [List.length_drop, List.length_cons]
    omega

/-- The lexemes of a source text. -/
def lexemes (source : List Char) : List Lexeme :=
  lexemesFrom 0 source

end PNorm
