import PNorm.Config.Json
import PNorm.Norm.Exponent
import PNorm.Text.Quoted

/-!
# The configuration of the norm

A configuration says which exponents the norm accepts.  Its document is a JSON
object with the member `exponent_policy`; other members are passed over, and a
missing one means `integer_only`.  A list with at most one element, the policy,
is read as well.  A policy is written as its name, or as an object with its name
for the only member and the value `null`.
-/

namespace PNorm

/-- The configuration of the norm. -/
structure NormConfig where
  policy : ExponentPolicy := .integerOnly
  deriving DecidableEq, Repr

namespace NormConfig

open Json

/-! ## Writing -/

/-- The name of the member that holds the policy. -/
def policyMember : String := "exponent_policy"

/-- The document of a configuration, without spaces. -/
def write (config : NormConfig) : String :=
  String.ofList ('{' :: Text.quote policyMember.toList ++ ':' ::
    Text.quote config.policy.name.toList ++ ['}'])

/-! ## Reading -/

/-- Read digits on to a number as long as it stays below `2 ^ 64`, and count the digits that are
left over. -/
def keepDigits (n : Nat) : List Char → Nat × Nat
  | [] => (n, 0)
  | digits@(c :: rest) =>
      let next := Nat.ofDigitChars 10 [c] n
      if next < 2 ^ 64 then keepDigits next rest else (n, digits.length)

/-- Whether the number at the front of a text is beyond the range of doubles.  Its value is put
together in two roundings: the leading digits, as many as fit into 64 bits, are multiplied by a
power of ten that is a double itself. -/
def isOutOfRange (cs : List Char) : Bool :=
  let whole := cs.takeWhile Char.isDigit
  let (fraction, fractionSize) := Numeral.scanFraction (cs.drop whole.length)
  let (power, _) := Numeral.scanExponent (cs.drop (whole.length + fractionSize))
  let (kept, wholeRest) := keepDigits 0 whole
  let (significand, fractionRest) := keepDigits kept fraction
  let exponent := power + wholeRest - (fraction.length - fractionRest : Nat)
  let leading := (Numeral.decimal false significand 0).toFloat
  let scale := (Numeral.decimal false 1 exponent).toFloat
  significand != 0 && exponent ≥ 0 && (leading * scale).isInf

/-- The fault of a number that stands where none is allowed. -/
def numberFault (cs : List Char) : Fault :=
  match takeNumber .unfinished cs with
  | .error fault => fault
  | .ok _ => if isOutOfRange cs then .malformed else .unfit

/-- The fault of a value of the wrong shape that starts with `c`.  Only as much of the value is read
as tells its shape, and a fault in that part comes first. -/
def shapeFault (c : Char) (rest : List Char) : Fault :=
  let ofWord (word : String) : Fault :=
    match takeWord word.toList rest with
    | .error fault => fault
    | .ok _ => .unfit
  if c = 'n' then ofWord "ull"
  else if c = 't' then ofWord "rue"
  else if c = 'f' then ofWord "alse"
  else if c = '-' then numberFault rest
  else if c.isDigit then numberFault (c :: rest)
  else if c = '"' then
    match takeString rest with
    | .error fault => fault
    | .ok _ => .unfit
  else if c = '[' ∨ c = '{' then .unfit
  else .malformed

/-- Take the name of a policy behind its opening quote. -/
def takePolicyName (cs : List Char) : Except Fault (ExponentPolicy × List Char) :=
  match takeString cs with
  | .error fault => .error fault
  | .ok (name, rest) =>
      match ExponentPolicy.ofName? (String.ofList name) with
      | some policy => .ok (policy, rest)
      | none => .error .unfit

/-- Take the value `null`, with any spaces before it. -/
def takeNull (cs : List Char) : Except Fault (List Char) :=
  match skipSpaces cs with
  | [] => .error .unfinished
  | 'n' :: rest => takeWord "ull".toList rest
  | c :: rest => .error (shapeFault c rest)

/-- Take a policy in the form of an object, behind its opening brace.  A member name that is no
string is malformed, whatever stands in its place. -/
def takePolicyObject (cs : List Char) : Except Fault (ExponentPolicy × List Char) :=
  match skipSpaces cs with
  | [] => .error .unfinished
  | '"' :: cs =>
      match takePolicyName cs with
      | .error fault => .error fault
      | .ok (policy, cs) =>
          match takeColon cs with
          | .error fault => .error fault
          | .ok cs =>
              match takeNull cs with
              | .error fault => .error fault
              | .ok cs =>
                  match skipSpaces cs with
                  | [] => .error .unfinished
                  | '}' :: rest => .ok (policy, rest)
                  | _ => .error .malformed
  | _ => .error .malformed

/-- Take a policy, with any spaces before it. -/
def takePolicy (cs : List Char) : Except Fault (ExponentPolicy × List Char) :=
  match skipSpaces cs with
  | [] => .error .unfinished
  | '"' :: rest => takePolicyName rest
  | '{' :: rest => takePolicyObject rest
  | _ => .error .malformed

/-- Take one member behind the opening quote of its name, with the policy found before it. -/
def takeMember (found : Option ExponentPolicy) (cs : List Char) :
    Except Fault (Option ExponentPolicy × List Char) :=
  match takeString cs with
  | .error fault => .error fault
  | .ok (name, cs) =>
      if name = policyMember.toList then
        if found.isSome then .error .unfit
        else
          match takeColon cs with
          | .error fault => .error fault
          | .ok cs =>
              match takePolicy cs with
              | .error fault => .error fault
              | .ok (policy, rest) => .ok (some policy, rest)
      else
        match takeColon cs with
        | .error fault => .error fault
        | .ok cs =>
            match skipValue cs with
            | .error fault => .error fault
            | .ok rest => .ok (found, rest)

/-! ### Every part is shorter than what it is taken from -/

theorem length_lt_of_takePolicyName {cs rest : List Char} {policy : ExponentPolicy}
    (h : takePolicyName cs = .ok (policy, rest)) : rest.length < cs.length := by
  revert h
  fun_cases takePolicyName cs with
  | case1 | case3 => nofun
  | case2 name after hstring =>
      rintro ⟨⟩
      exact length_lt_of_takeString hstring

theorem length_le_of_takeNull {cs rest : List Char} (h : takeNull cs = .ok rest) :
    rest.length ≤ cs.length := by
  revert h
  fun_cases takeNull cs with
  | case1 | case3 => nofun
  | case2 inner hspaces =>
      intro h
      exact Nat.le_of_lt (Nat.lt_of_le_of_lt (length_le_of_takeWord h)
        (length_lt_of_skipSpaces hspaces))

theorem length_lt_of_takePolicyObject {cs rest : List Char} {policy : ExponentPolicy}
    (h : takePolicyObject cs = .ok (policy, rest)) : rest.length < cs.length := by
  revert h
  fun_cases takePolicyObject cs with
  | case1 | case2 | case3 | case4 | case5 | case7 | case8 => nofun
  | case6 name hspaces found colon hname null hcolon close hnull after hclose =>
      rintro ⟨⟩
      have := length_lt_of_skipSpaces hspaces
      have := length_lt_of_takePolicyName hname
      have := length_lt_of_takeColon hcolon
      have := length_le_of_takeNull hnull
      have := length_lt_of_skipSpaces hclose
      omega

theorem length_lt_of_takePolicy {cs rest : List Char} {policy : ExponentPolicy}
    (h : takePolicy cs = .ok (policy, rest)) : rest.length < cs.length := by
  revert h
  fun_cases takePolicy cs with
  | case1 | case4 => nofun
  | case2 name hspaces =>
      intro h
      exact Nat.lt_trans (length_lt_of_takePolicyName h) (length_lt_of_skipSpaces hspaces)
  | case3 object hspaces =>
      intro h
      exact Nat.lt_trans (length_lt_of_takePolicyObject h) (length_lt_of_skipSpaces hspaces)

theorem length_lt_of_takeMember {found policy : Option ExponentPolicy} {cs rest : List Char}
    (h : takeMember found cs = .ok (policy, rest)) : rest.length < cs.length := by
  revert h
  fun_cases takeMember found cs with
  | case1 | case2 | case3 | case4 | case6 | case7 => nofun
  | case5 colon _ value hcolon chosen after hpolicy hstring =>
      rintro ⟨⟩
      have := length_lt_of_takeString hstring
      have := length_lt_of_takeColon hcolon
      have := length_lt_of_takePolicy hpolicy
      omega
  | case8 name colon hstring _ value hcolon after hvalue =>
      rintro ⟨⟩
      have := length_lt_of_takeString hstring
      have := length_lt_of_takeColon hcolon
      have := length_le_of_skipFrom hvalue
      omega

/-! ### Documents -/

/-- Take the members that follow the first, and the closing brace. -/
def takeMembers (found : Option ExponentPolicy) (cs : List Char) :
    Except Fault (Option ExponentPolicy × List Char) :=
  match _ : skipSpaces cs with
  | [] => .error .unfinished
  | '}' :: rest => .ok (found, rest)
  | ',' :: inner =>
      match _ : skipSpaces inner with
      | [] => .error .unfinished
      | '"' :: name =>
          match _ : takeMember found name with
          | .error fault => .error fault
          | .ok (found, rest) => takeMembers found rest
      | _ => .error .malformed
  | _ => .error .malformed
termination_by cs.length
decreasing_by
  rename_i hcomma hquote hmember
  exact Nat.lt_trans (length_lt_of_takeMember hmember)
    (Nat.lt_trans (length_lt_of_skipSpaces hquote) (length_lt_of_skipSpaces hcomma))

/-- Take an object behind its opening brace. -/
def takeObject (cs : List Char) : Except Fault (Option ExponentPolicy × List Char) :=
  match skipSpaces cs with
  | [] => .error .unfinished
  | '}' :: rest => .ok (none, rest)
  | '"' :: name =>
      match takeMember none name with
      | .error fault => .error fault
      | .ok (found, rest) => takeMembers found rest
  | _ => .error .malformed

/-- Take a list behind its opening bracket. -/
def takeList (cs : List Char) : Except Fault (Option ExponentPolicy × List Char) :=
  match skipSpaces cs with
  | [] => .error .unfinished
  | ']' :: rest => .ok (none, rest)
  | element =>
      match takePolicy element with
      | .error fault => .error fault
      | .ok (policy, cs) =>
          match skipSpaces cs with
          | [] => .error .unfinished
          | ']' :: rest => .ok (some policy, rest)
          | _ => .error .malformed

/-- Take a configuration, with any spaces before it. -/
def takeConfig (cs : List Char) : Except Fault (Option ExponentPolicy × List Char) :=
  match skipSpaces cs with
  | [] => .error .unfinished
  | '{' :: rest => takeObject rest
  | '[' :: rest => takeList rest
  | c :: rest => .error (shapeFault c rest)

/-- Read a document as a configuration. -/
def read (document : String) : Except Fault NormConfig :=
  match takeConfig document.toList with
  | .error fault => .error fault
  | .ok (policy?, rest) =>
      if skipSpaces rest = [] then .ok ⟨policy?.getD .integerOnly⟩ else .error .malformed

end NormConfig

end PNorm
