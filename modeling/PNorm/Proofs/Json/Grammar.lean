import PNorm.Number.Layout
import PNorm.Proofs.Call.Grammar

/-!
# The grammar of JSON

What a JSON text looks like and what it says, without a reader: relations
between texts and values, one constructor for each way of writing something.

```text
value  = "null" | "true" | "false" | number | string
       | "[" (value ("," value)*)? "]"
       | "{" (member ("," member)*)? "}"
member = string ":" value
```

Between these parts, and at the two ends of a document, any spaces may stand.
A value keeps what a text says up to the spaces: the digits of its numbers, and
the pieces of its strings.  A string need not be a text, since an escape can
name one half of a surrogate pair alone; `Piece.text?` is the text that pieces
form if they form one.
-/

namespace PNorm.Json

open Grammar (Spaces Digits Power ListText MoreText)

/-! ## Strings -/

/-- A piece of a string: a character, written as itself or with a short escape, or a code unit that
is written in hexadecimal digits. -/
inductive Piece where
  | char (c : Char)
  | unit (code : Nat)
  deriving DecidableEq, Repr

/-- The characters that have a short escape, each behind the one that is written for it. -/
def shortEscapes : List (Char × Char) :=
  [('"', '"'), ('\\', '\\'), ('/', '/'), ('b', '\x08'), ('f', '\x0c'), ('n', '\n'), ('r', '\r'),
    ('t', '\t')]

/-- A hexadecimal digit in either case, and its value. -/
def HexDigit (c : Char) (n : Nat) : Prop :=
  n < 16 ∧ (c = Nat.digitChar n ∨ c = (Nat.digitChar n).toUpper)

/-- How a piece is written. -/
inductive PieceText : List Char → Piece → Prop
  | plain {c : Char} (hcontrol : 0x20 ≤ c.toNat) (hquote : c ≠ '"') (hbackslash : c ≠ '\\') :
      PieceText [c] (.char c)
  | short {c value : Char} (hescape : (c, value) ∈ shortEscapes) :
      PieceText ['\\', c] (.char value)
  | unit {c₃ c₂ c₁ c₀ : Char} {n₃ n₂ n₁ n₀ : Nat} (h₃ : HexDigit c₃ n₃) (h₂ : HexDigit c₂ n₂)
      (h₁ : HexDigit c₁ n₁) (h₀ : HexDigit c₀ n₀) :
      PieceText ['\\', 'u', c₃, c₂, c₁, c₀] (.unit (((n₃ * 16 + n₂) * 16 + n₁) * 16 + n₀))

/-- The inside of a string. -/
inductive ContentText : List Char → List Piece → Prop
  | nil : ContentText [] []
  | cons {text rest : List Char} {piece : Piece} {pieces : List Piece}
      (hpiece : PieceText text piece) (hrest : ContentText rest pieces) :
      ContentText (text ++ rest) (piece :: pieces)

/-- A string in its quotes. -/
inductive StringText : List Char → List Piece → Prop
  | mk {content : List Char} {pieces : List Piece} (hcontent : ContentText content pieces) :
      StringText ('"' :: (content ++ ['"'])) pieces

/-- The text that pieces form.  A code unit of the first half of the surrogates needs one of the
second half behind it, and the two of them stand for one character. -/
def Piece.text? : List Piece → Option (List Char)
  | [] => some []
  | .char c :: rest => (text? rest).map (c :: ·)
  | .unit code :: rest =>
      if 0xDC00 ≤ code ∧ code ≤ 0xDFFF then none
      else if 0xD800 ≤ code ∧ code ≤ 0xDBFF then
        match rest with
        | .unit low :: rest =>
            if 0xDC00 ≤ low ∧ low ≤ 0xDFFF then
              (text? rest).map
                (Char.ofNat (0x10000 + (code - 0xD800) * 0x400 + (low - 0xDC00)) :: ·)
            else none
        | _ => none
      else (text? rest).map (Char.ofNat code :: ·)

/-! ## Numbers -/

/-- The digits before the point, where a zero in front stands alone. -/
inductive Whole : List Char → Prop
  | zero : Whole ['0']
  | digits {c : Char} {rest : List Char} (hc : c.isDigit) (hzero : c ≠ '0') (hrest : Digits rest) :
      Whole (c :: rest)

/-- An optional point with digits behind it. -/
inductive Fraction : List Char → Prop
  | absent : Fraction []
  | present {digits : List Char} (hne : digits ≠ []) (hdigits : Digits digits) :
      Fraction ('.' :: digits)

/-- A number without its sign. -/
inductive Magnitude : List Char → Prop
  | mk {whole fraction power : List Char} {exponent : ℤ} (hwhole : Whole whole)
      (hfraction : Fraction fraction) (hpower : Power power exponent) :
      Magnitude (whole ++ (fraction ++ power))

/-! ## Values -/

/-- What a JSON text says. -/
inductive Value where
  | null
  | bool (value : Bool)
  | number (negative : Bool) (magnitude : List Char)
  | string (pieces : List Piece)
  | list (items : List Value)
  | record (members : List (List Piece × Value))

/-- Any number of items with commas between them, in brackets. -/
inductive Enclosed {β : Type} (Item : List Char → β → Prop) (opening closing : Char) :
    List Char → List β → Prop
  | empty {spaces : List Char} (hspaces : Spaces spaces) :
      Enclosed Item opening closing (opening :: (spaces ++ [closing])) []
  | items {before text after : List Char} {values : List β} (hbefore : Spaces before)
      (hitems : ListText Item text values) (hafter : Spaces after) :
      Enclosed Item opening closing (opening :: (before ++ (text ++ (after ++ [closing])))) values

/-- A name and a value with a colon between them. -/
inductive MemberText (Item : List Char → Value → Prop) : List Char → List Piece × Value → Prop
  | mk {name before after text : List Char} {pieces : List Piece} {value : Value}
      (hname : StringText name pieces) (hbefore : Spaces before) (hafter : Spaces after)
      (hvalue : Item text value) :
      MemberText Item (name ++ (before ++ ':' :: (after ++ text))) (pieces, value)

/-- A value, without spaces around it. -/
inductive ValueText : List Char → Value → Prop
  | null : ValueText "null".toList .null
  | bool (value : Bool) : ValueText (toString value).toList (.bool value)
  | number (negative : Bool) {text : List Char} (hmagnitude : Magnitude text) :
      ValueText (writeSign negative text) (.number negative text)
  | string {text : List Char} {pieces : List Piece} (hstring : StringText text pieces) :
      ValueText text (.string pieces)
  | list {text : List Char} {items : List Value} (hitems : Enclosed ValueText '[' ']' text items) :
      ValueText text (.list items)
  | record {text : List Char} {members : List (List Piece × Value)}
      (hmembers : Enclosed (MemberText ValueText) '{' '}' text members) :
      ValueText text (.record members)

/-- A document that is an object. -/
inductive ObjectText : List Char → List (List Piece × Value) → Prop
  | mk {before text after : List Char} {members : List (List Piece × Value)}
      (hbefore : Spaces before) (hmembers : Enclosed (MemberText ValueText) '{' '}' text members)
      (hafter : Spaces after) :
      ObjectText (before ++ (text ++ after)) members

/-- The values of the members with a name, in their order.  A name is what its pieces say. -/
def valuesNamed (name : List Char) (members : List (List Piece × Value)) : List Value :=
  members.filterMap fun member =>
    if Piece.text? member.1 = some name then some member.2 else none

/-! ## Induction -/

/-- Induction on how a value is written.  For a list or a record, what is to be proved holds of
every value inside. -/
theorem ValueText.induct {motive : List Char → Value → Prop} (null : motive "null".toList .null)
    (bool : ∀ value : Bool, motive (toString value).toList (.bool value))
    (number : ∀ negative {text}, Magnitude text →
      motive (writeSign negative text) (.number negative text))
    (string : ∀ {text pieces}, StringText text pieces → motive text (.string pieces))
    (list : ∀ {text items},
      Enclosed (fun text value => ValueText text value ∧ motive text value) '[' ']' text items →
        motive text (.list items))
    (record : ∀ {text members},
      Enclosed (MemberText fun text value => ValueText text value ∧ motive text value) '{' '}' text
          members →
        motive text (.record members))
    {text : List Char} {value : Value} (h : ValueText text value) : motive text value := by
  let Both (text : List Char) (value : Value) : Prop := ValueText text value ∧ motive text value
  -- The recursor knows the lists of a list and of a record as types of their own, each with what
  -- the values in it fulfil.  Put together again they are the lists of the grammar.
  refine @ValueText.rec (fun text value _ => motive text value)
    (fun text items _ => Enclosed Both '[' ']' text items)
    (fun text members _ => Enclosed (MemberText Both) '{' '}' text members)
    (fun text items _ => ListText Both text items)
    (fun text members _ => ListText (MemberText Both) text members)
    (fun text items _ => MoreText Both text items)
    (fun text member _ => MemberText Both text member)
    (fun text members _ => MoreText (MemberText Both) text members)
    null bool number string (fun _ ih => list ih) (fun _ ih => record ih)
    ?_ ?_ ?_ ?_ ?_ ?_ ?_ ?_ ?_ ?_ ?_ text value h
  · intro spaces hspaces
    exact .empty hspaces
  · intro before text after items hbefore _ hafter ih
    exact .items hbefore ih hafter
  · intro spaces hspaces
    exact .empty hspaces
  · intro before text after members hbefore _ hafter ih
    exact .items hbefore ih hafter
  · intro text rest value values hitem _ ih ihrest
    exact .cons ⟨hitem, ih⟩ ihrest
  · intro text rest member members _ _ ih ihrest
    exact .cons ih ihrest
  · exact .nil
  · intro before after text rest value values hbefore hafter hitem _ ih ihrest
    exact .cons hbefore hafter ⟨hitem, ih⟩ ihrest
  · intro name before after text pieces value hname hbefore hafter hvalue ih
    exact .mk hname hbefore hafter ⟨hvalue, ih⟩
  · exact .nil
  · intro before after text rest member members hbefore hafter _ _ ih ihrest
    exact .cons hbefore hafter ih ihrest

end PNorm.Json
