import PNorm.Number.Numeral
import PNorm.Text.Blank
import PNorm.Text.Measure

/-!
# Reading JSON from left to right

The parts of a JSON reader for configurations: spaces, fixed words, strings,
numbers, and values of any shape that are passed over.  A reader takes the text
and returns the rest, or one of three faults.  The text is read strictly from
left to right, so the fault is that of the first place where reading cannot go
on.

A value that is passed over is checked for its form only.  Where a string is
needed for its content, its escapes must form a Unicode text as well.
-/

namespace PNorm.Json

/-- Why reading stopped. -/
inductive Fault where
  /-- The text is no JSON, or goes on after its value. -/
  | malformed
  /-- The text ends too early. -/
  | unfinished
  /-- The value has another shape than the one that is needed. -/
  | unfit
  deriving DecidableEq, Repr

/-- The text behind any spaces. -/
def skipSpaces (cs : List Char) : List Char :=
  cs.dropWhile Text.isSpace

/-- Take the characters of `word` from the front. -/
def takeWord : List Char → List Char → Except Fault (List Char)
  | [], cs => .ok cs
  | _ :: _, [] => .error .unfinished
  | expected :: word, c :: rest => if c = expected then takeWord word rest else .error .malformed

/-- Take a colon with any spaces before it. -/
def takeColon (cs : List Char) : Except Fault (List Char) :=
  match skipSpaces cs with
  | ':' :: rest => .ok rest
  | [] => .error .unfinished
  | _ => .error .malformed

/-! ## Strings -/

/-- The value of a hexadecimal digit. -/
def hexDigit? (c : Char) : Option Nat :=
  if c.isDigit then some (c.toNat - '0'.toNat)
  else if 'a' ≤ c ∧ c ≤ 'f' then some (c.toNat - 'a'.toNat + 10)
  else if 'A' ≤ c ∧ c ≤ 'F' then some (c.toNat - 'A'.toNat + 10)
  else none

/-- Take the four hexadecimal digits of an escape.  A text of less than four bytes is unfinished
whatever it holds. -/
def takeHex (cs : List Char) : Except Fault (Nat × List Char) :=
  if Text.byteLength (cs.take 4) < 4 then .error .unfinished
  else
    match cs with
    | a :: b :: c :: d :: rest =>
        match hexDigit? a, hexDigit? b, hexDigit? c, hexDigit? d with
        | some a, some b, some c, some d => .ok (((a * 16 + b) * 16 + c) * 16 + d, rest)
        | _, _, _, _ => .error .malformed
    | _ => .error .malformed

/-- The characters that may follow a backslash and stand for one character. -/
def escaped? : Char → Option Char
  | '"' => some '"'
  | '\\' => some '\\'
  | '/' => some '/'
  | 'b' => some '\x08'
  | 'f' => some '\x0c'
  | 'n' => some '\n'
  | 'r' => some '\r'
  | 't' => some '\t'
  | _ => none

/-- Take the second half of a surrogate pair, and join it with the first. -/
def takeLowSurrogate (high : Nat) : List Char → Except Fault (Char × List Char)
  | [] => .error .unfinished
  | '\\' :: [] => .error .unfinished
  | '\\' :: 'u' :: cs =>
      match takeHex cs with
      | .error fault => .error fault
      | .ok (low, rest) =>
          if 0xDC00 ≤ low ∧ low ≤ 0xDFFF then
            .ok (Char.ofNat (0x10000 + (high - 0xD800) * 0x400 + (low - 0xDC00)), rest)
          else .error .malformed
  | _ => .error .malformed

/-- Take the part of an escape behind the backslash, and return the character it stands for. -/
def takeEscape : List Char → Except Fault (Char × List Char)
  | [] => .error .unfinished
  | 'u' :: cs =>
      match takeHex cs with
      | .error fault => .error fault
      | .ok (code, rest) =>
          if 0xDC00 ≤ code ∧ code ≤ 0xDFFF then .error .malformed
          else if 0xD800 ≤ code ∧ code ≤ 0xDBFF then takeLowSurrogate code rest
          else .ok (Char.ofNat code, rest)
  | c :: rest =>
      match escaped? c with
      | some value => .ok (value, rest)
      | none => .error .malformed

/-- Take the part of an escape behind the backslash, whatever it stands for. -/
def skipEscape : List Char → Except Fault (List Char)
  | [] => .error .unfinished
  | 'u' :: cs =>
      match takeHex cs with
      | .error fault => .error fault
      | .ok (_, rest) => .ok rest
  | c :: rest => if (escaped? c).isSome then .ok rest else .error .malformed

theorem length_lt_of_takeHex {cs rest : List Char} {code : Nat}
    (h : takeHex cs = .ok (code, rest)) : rest.length < cs.length := by
  unfold takeHex at h
  split at h
  · cases h
  · split at h
    · split at h
      · cases h
        simp only [List.length_cons]
        omega
      · cases h
    · cases h

theorem length_lt_of_takeLowSurrogate {high : Nat} {cs rest : List Char} {c : Char}
    (h : takeLowSurrogate high cs = .ok (c, rest)) : rest.length < cs.length := by
  revert h
  fun_cases takeLowSurrogate high cs with
  | case1 | case2 | case3 | case5 | case6 => nofun
  | case4 cs low after hhex =>
      intro h
      obtain ⟨-, rfl⟩ := Prod.mk.inj (Except.ok.inj h)
      have := length_lt_of_takeHex hhex
      simp only [List.length_cons]
      omega

theorem length_lt_of_takeEscape {cs rest : List Char} {c : Char}
    (h : takeEscape cs = .ok (c, rest)) : rest.length < cs.length := by
  revert h
  fun_cases takeEscape cs with
  | case1 | case2 | case3 | case7 => nofun
  | case4 cs high after hhex =>
      intro h
      have := length_lt_of_takeHex hhex
      have := length_lt_of_takeLowSurrogate h
      simp only [List.length_cons]
      omega
  | case5 cs code after hhex =>
      intro h
      obtain ⟨-, rfl⟩ := Prod.mk.inj (Except.ok.inj h)
      have := length_lt_of_takeHex hhex
      simp only [List.length_cons]
      omega
  | case6 =>
      rintro ⟨⟩
      simp

theorem length_lt_of_skipEscape {cs rest : List Char} (h : skipEscape cs = .ok rest) :
    rest.length < cs.length := by
  revert h
  fun_cases skipEscape cs with
  | case1 | case2 | case5 => nofun
  | case3 cs code after hhex =>
      rintro ⟨⟩
      have := length_lt_of_takeHex hhex
      simp only [List.length_cons]
      omega
  | case4 =>
      rintro ⟨⟩
      simp

/-- Take a string behind its opening quote, and return its content. -/
def takeString : List Char → Except Fault (List Char × List Char)
  | [] => .error .unfinished
  | '"' :: rest => .ok ([], rest)
  | '\\' :: cs =>
      match _ : takeEscape cs with
      | .error fault => .error fault
      | .ok (c, rest) =>
          match takeString rest with
          | .error fault => .error fault
          | .ok (content, rest) => .ok (c :: content, rest)
  | c :: cs =>
      if c.toNat < 0x20 then .error .malformed
      else
        match takeString cs with
        | .error fault => .error fault
        | .ok (content, rest) => .ok (c :: content, rest)
termination_by cs => cs.length
decreasing_by
  · rename_i hescape
    have := length_lt_of_takeEscape hescape
    simp only [List.length_cons]
    omega
  · simp

/-- Pass over a string behind its opening quote. -/
def skipString : List Char → Except Fault (List Char)
  | [] => .error .unfinished
  | '"' :: rest => .ok rest
  | '\\' :: cs =>
      match _ : skipEscape cs with
      | .error fault => .error fault
      | .ok rest => skipString rest
  | c :: cs => if c.toNat < 0x20 then .error .malformed else skipString cs
termination_by cs => cs.length
decreasing_by
  · rename_i hescape
    have := length_lt_of_skipEscape hescape
    simp only [List.length_cons]
    omega
  · simp

/-! ## Numbers -/

/-- Take digits, of which there must be at least one.  `atEnd` is the fault of a text that ends
before the first. -/
def takeDigits (atEnd : Fault) (cs : List Char) : Except Fault (List Char) :=
  match cs with
  | [] => .error atEnd
  | c :: _ => if c.isDigit then .ok (cs.dropWhile Char.isDigit) else .error .malformed

/-- Take an exponent part, if there is one. -/
def takeExponent (atEnd : Fault) : List Char → Except Fault (List Char)
  | [] => .ok []
  | c :: rest =>
      if c = 'e' ∨ c = 'E' then takeDigits atEnd (rest.drop (Numeral.scanSign rest).2)
      else .ok (c :: rest)

/-- Take a fraction and an exponent part, if there are any. -/
def takeFraction (atEnd : Fault) : List Char → Except Fault (List Char)
  | '.' :: rest =>
      match takeDigits atEnd rest with
      | .error fault => .error fault
      | .ok rest => takeExponent atEnd rest
  | cs => takeExponent atEnd cs

/-- Take a number behind its minus sign.  A leading zero has no digits after it. -/
def takeNumber (atEnd : Fault) : List Char → Except Fault (List Char)
  | [] => .error atEnd
  | '0' :: rest =>
      match rest with
      | c :: _ => if c.isDigit then .error .malformed else takeFraction atEnd rest
      | [] => .ok []
  | c :: rest =>
      if c.isDigit then takeFraction atEnd (rest.dropWhile Char.isDigit) else .error .malformed

/-! ## Values that are passed over -/

/-- What an unclosed bracket belongs to. -/
inductive Frame where
  | list
  | record
  deriving DecidableEq, Repr

/-- Whether a value comes next or has just ended. -/
inductive Place where
  | beforeValue
  | afterValue
  deriving DecidableEq, Repr

/-- Pass over a member name and its colon, from the opening quote on. -/
def skipName : List Char → Except Fault (List Char)
  | [] => .error .unfinished
  | c :: cs =>
      if c = '"' then
        match skipString cs with
        | .error fault => .error fault
        | .ok rest => takeColon rest
      else .error .malformed

/-- Pass over a value without parts that starts with `c`. -/
def skipScalar (c : Char) (rest : List Char) : Except Fault (List Char) :=
  if c = 'n' then takeWord "ull".toList rest
  else if c = 't' then takeWord "rue".toList rest
  else if c = 'f' then takeWord "alse".toList rest
  else if c = '"' then skipString rest
  else if c = '-' then takeNumber .malformed rest
  else takeNumber .malformed (c :: rest)

/-! ### Every part is shorter than what it is taken from -/

theorem length_skipSpaces_le (cs : List Char) : (skipSpaces cs).length ≤ cs.length :=
  (List.dropWhile_sublist _).length_le

theorem length_lt_of_skipSpaces {cs rest : List Char} {c : Char} (h : skipSpaces cs = c :: rest) :
    rest.length < cs.length := by
  have hle := length_skipSpaces_le cs
  rw [h] at hle
  exact hle

theorem length_le_of_takeWord {word cs rest : List Char} (h : takeWord word cs = .ok rest) :
    rest.length ≤ cs.length := by
  induction word generalizing cs with
  | nil =>
      cases h
      exact Nat.le_refl _
  | cons expected word ih =>
      cases cs with
      | nil => cases h
      | cons c tail =>
          simp only [takeWord] at h
          split at h
          · exact Nat.le_succ_of_le (ih h)
          · cases h

theorem length_lt_of_takeColon {cs rest : List Char} (h : takeColon cs = .ok rest) :
    rest.length < cs.length := by
  revert h
  fun_cases takeColon cs with
  | case1 after hspaces =>
      rintro ⟨⟩
      exact length_lt_of_skipSpaces hspaces
  | case2 | case3 => nofun

theorem length_lt_of_skipString {cs rest : List Char} (h : skipString cs = .ok rest) :
    rest.length < cs.length := by
  fun_induction skipString cs with
  | case1 => cases h
  | case2 tail =>
      cases h
      simp
  | case3 => cases h
  | case4 tail after hescape ih =>
      have := length_lt_of_skipEscape hescape
      have := ih h
      simp only [List.length_cons]
      omega
  | case5 => cases h
  | case6 c tail _ _ _ ih => exact Nat.lt_succ_of_lt (ih h)

theorem length_lt_of_takeString {cs content rest : List Char}
    (h : takeString cs = .ok (content, rest)) : rest.length < cs.length := by
  fun_induction takeString cs generalizing content rest with
  | case1 => cases h
  | case2 tail =>
      cases h
      simp
  | case3 => cases h
  | case4 => cases h
  | case5 tail c after hescape content' rest' heq ih =>
      cases h
      have := length_lt_of_takeEscape hescape
      have := ih heq
      simp only [List.length_cons]
      omega
  | case6 => cases h
  | case7 => cases h
  | case8 c tail _ _ _ content' rest' heq ih =>
      cases h
      exact Nat.lt_succ_of_lt (ih heq)

theorem length_lt_of_skipName {cs rest : List Char} (h : skipName cs = .ok rest) :
    rest.length < cs.length := by
  revert h
  fun_cases skipName cs with
  | case1 | case2 | case4 => nofun
  | case3 tail colon hstring =>
      intro h
      have := length_lt_of_skipString hstring
      have := length_lt_of_takeColon h
      simp only [List.length_cons]
      omega

theorem length_lt_of_takeDigits {atEnd : Fault} {cs rest : List Char}
    (h : takeDigits atEnd cs = .ok rest) : rest.length < cs.length := by
  revert h
  fun_cases takeDigits atEnd cs with
  | case1 | case3 => nofun
  | case2 c tail hdigit =>
      rintro ⟨⟩
      rw [List.dropWhile_cons_of_pos hdigit]
      exact Nat.lt_succ_of_le (List.dropWhile_sublist _).length_le

theorem length_le_of_takeExponent {atEnd : Fault} {cs rest : List Char}
    (h : takeExponent atEnd cs = .ok rest) : rest.length ≤ cs.length := by
  cases cs with
  | nil =>
      cases h
      exact Nat.le_refl _
  | cons c tail =>
      simp only [takeExponent] at h
      split at h
      · have := length_lt_of_takeDigits h
        simp only [List.length_drop, List.length_cons] at *
        omega
      · cases h
        exact Nat.le_refl _

theorem length_le_of_takeFraction {atEnd : Fault} {cs rest : List Char}
    (h : takeFraction atEnd cs = .ok rest) : rest.length ≤ cs.length := by
  revert h
  fun_cases takeFraction atEnd cs with
  | case1 => nofun
  | case2 tail after hdigits =>
      intro h
      have := length_lt_of_takeDigits hdigits
      have := length_le_of_takeExponent h
      simp only [List.length_cons]
      omega
  | case3 => exact length_le_of_takeExponent

theorem length_lt_of_takeNumber {atEnd : Fault} {cs rest : List Char}
    (h : takeNumber atEnd cs = .ok rest) : rest.length < cs.length := by
  unfold takeNumber at h
  split at h
  · cases h
  · split at h
    · split at h
      · cases h
      · exact Nat.lt_succ_of_le (length_le_of_takeFraction h)
    · cases h
      simp
  · split at h
    · exact Nat.lt_succ_of_le (Nat.le_trans (length_le_of_takeFraction h)
        (List.dropWhile_sublist _).length_le)
    · cases h

theorem length_le_of_skipScalar {c : Char} {cs rest : List Char} (h : skipScalar c cs = .ok rest) :
    rest.length ≤ cs.length := by
  unfold skipScalar at h
  split at h
  · exact length_le_of_takeWord h
  · split at h
    · exact length_le_of_takeWord h
    · split at h
      · exact length_le_of_takeWord h
      · split at h
        · exact Nat.le_of_lt (length_lt_of_skipString h)
        · split at h
          · exact Nat.le_of_lt (length_lt_of_takeNumber h)
          · exact Nat.le_of_lt_succ (length_lt_of_takeNumber h)

/-! ### The machine -/

/-- Pass over the rest of a value, with the open brackets on a stack. -/
def skipFrom (place : Place) (stack : List Frame) (cs : List Char) : Except Fault (List Char) :=
  match place, stack with
  | .beforeValue, stack =>
      match _ : skipSpaces cs with
      | [] => .error .unfinished
      | '[' :: inner =>
          -- A closing bracket may follow the opening one, but never a comma.
          match _ : skipSpaces inner with
          | ']' :: rest => skipFrom .afterValue stack rest
          | rest => skipFrom .beforeValue (.list :: stack) rest
      | '{' :: inner =>
          match _ : skipSpaces inner with
          | '}' :: rest => skipFrom .afterValue stack rest
          | name =>
              match _ : skipName name with
              | .error fault => .error fault
              | .ok rest => skipFrom .beforeValue (.record :: stack) rest
      | c :: inner =>
          match _ : skipScalar c inner with
          | .error fault => .error fault
          | .ok rest => skipFrom .afterValue stack rest
  | .afterValue, [] => .ok cs
  | .afterValue, .list :: stack =>
      match _ : skipSpaces cs with
      | [] => .error .unfinished
      | ',' :: rest => skipFrom .beforeValue (.list :: stack) rest
      | ']' :: rest => skipFrom .afterValue stack rest
      | _ => .error .malformed
  | .afterValue, .record :: stack =>
      match _ : skipSpaces cs with
      | [] => .error .unfinished
      | ',' :: inner =>
          match _ : skipName (skipSpaces inner) with
          | .error fault => .error fault
          | .ok rest => skipFrom .beforeValue (.record :: stack) rest
      | '}' :: rest => skipFrom .afterValue stack rest
      | _ => .error .malformed
termination_by cs.length
decreasing_by
  · rename_i hopen hclose
    exact Nat.lt_trans (length_lt_of_skipSpaces hclose) (length_lt_of_skipSpaces hopen)
  · rename_i hopen hinner
    rw [← hinner]
    exact Nat.lt_of_le_of_lt (length_skipSpaces_le _) (length_lt_of_skipSpaces hopen)
  · rename_i hopen hclose
    exact Nat.lt_trans (length_lt_of_skipSpaces hclose) (length_lt_of_skipSpaces hopen)
  · rename_i hopen hinner hname
    have := length_lt_of_skipName hname
    rw [← hinner] at this
    exact Nat.lt_of_lt_of_le this
      (Nat.le_trans (length_skipSpaces_le _) (Nat.le_of_lt (length_lt_of_skipSpaces hopen)))
  · rename_i hspaces hscalar
    exact Nat.lt_of_le_of_lt (length_le_of_skipScalar hscalar) (length_lt_of_skipSpaces hspaces)
  · rename_i hspaces
    exact length_lt_of_skipSpaces hspaces
  · rename_i hspaces
    exact length_lt_of_skipSpaces hspaces
  · rename_i hspaces hname
    exact Nat.lt_of_lt_of_le (length_lt_of_skipName hname)
      (Nat.le_trans (length_skipSpaces_le _) (Nat.le_of_lt (length_lt_of_skipSpaces hspaces)))
  · rename_i hspaces
    exact length_lt_of_skipSpaces hspaces

theorem length_le_of_skipFrom {place : Place} {stack : List Frame} {cs rest : List Char}
    (h : skipFrom place stack cs = .ok rest) : rest.length ≤ cs.length := by
  fun_induction skipFrom place stack cs with
  | case1 => cases h
  | case2 cs stack inner hopen after hclose ih =>
      have := length_lt_of_skipSpaces hopen
      have := length_lt_of_skipSpaces hclose
      have := ih h
      omega
  | case3 cs stack inner hopen _ ih =>
      have := length_lt_of_skipSpaces hopen
      have := length_skipSpaces_le inner
      have := ih h
      omega
  | case4 cs stack inner hopen after hclose ih =>
      have := length_lt_of_skipSpaces hopen
      have := length_lt_of_skipSpaces hclose
      have := ih h
      omega
  | case5 => cases h
  | case6 cs stack inner hopen _ after hname ih =>
      have := length_lt_of_skipSpaces hopen
      have := length_skipSpaces_le inner
      have := length_lt_of_skipName hname
      have := ih h
      omega
  | case7 => cases h
  | case8 cs stack c inner _ _ hspaces after hscalar ih =>
      have := length_lt_of_skipSpaces hspaces
      have := length_le_of_skipScalar hscalar
      have := ih h
      omega
  | case9 =>
      cases h
      exact Nat.le_refl _
  | case10 => cases h
  | case11 cs stack after hspaces ih =>
      have := length_lt_of_skipSpaces hspaces
      have := ih h
      omega
  | case12 cs stack after hspaces ih =>
      have := length_lt_of_skipSpaces hspaces
      have := ih h
      omega
  | case13 => cases h
  | case14 => cases h
  | case15 => cases h
  | case16 cs stack inner hspaces after hname ih =>
      have := length_lt_of_skipSpaces hspaces
      have := length_skipSpaces_le inner
      have := length_lt_of_skipName hname
      have := ih h
      omega
  | case17 cs stack after hspaces ih =>
      have := length_lt_of_skipSpaces hspaces
      have := ih h
      omega
  | case18 => cases h

/-- Pass over one value. -/
def skipValue (cs : List Char) : Except Fault (List Char) :=
  skipFrom .beforeValue [] cs

end PNorm.Json
