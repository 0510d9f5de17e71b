import PNorm.Config.Basic
import PNorm.Proofs.Json.Passing
import PNorm.Proofs.Json.Written

/-!
# Only the policy decides a configuration

A document is an object of any members in any order.  Reading it as a
configuration comes down to the values of its policy members alone
(`read_object`): every other member is passed over whole, and leaves what stands
behind it to be read as if it were not there.  What those values come to is said
twice, by `settle` down to the fault of a document that is refused, and by
`Decides` for the documents that are not.

A policy member is one whose name says `exponent_policy`, in whatever spelling.

Documents are taken from a grammar (`ObjectText`), and each reader of a part gets
one lemma that says what it does in front of an arbitrary rest
(`takePolicy_append`, `takeMembers_append`, `takeObject_append`).  The values of
other members are passed over without being read; that this ends where the value
ends is the subject of `PNorm.Proofs.Json.Passing`.

Faults need more care than success.  A document that is no document and one that
does not fit are told apart, and which of the two it is can depend on how far a
value was read before it was refused.  A number out of range is the case in
point: it is malformed even where no number was wanted.
-/

namespace PNorm

theorem ExponentPolicy.ofName?_eq_some_iff {name : List Char} {policy : ExponentPolicy} :
    ofName? (String.ofList name) = some policy ↔ name = policy.name.toList := by
  constructor
  · fun_cases ofName? (String.ofList name) with
    | case1 hname | case2 _ hname =>
        rintro ⟨⟩
        rw [← String.toList_ofList (l := name), hname]
        rfl
    | case3 => nofun
  · rintro rfl
    rw [String.ofList_toList, ofName?_name]

namespace NormConfig

open Json
open Grammar (Spaces Digits Power ListText MoreText EndsNumber)

/-! ## What a value says as a policy -/

/-- A value that denotes a policy: its name, or an object with its name for the only member and the
value `null`. -/
inductive Denotes : Value → ExponentPolicy → Prop
  | name {pieces : List Piece} {policy : ExponentPolicy}
      (hname : Piece.text? pieces = some policy.name.toList) : Denotes (.string pieces) policy
  | record {pieces : List Piece} {policy : ExponentPolicy}
      (hname : Piece.text? pieces = some policy.name.toList) :
      Denotes (.record [(pieces, .null)]) policy

/-- The policy that the pieces of a string name. -/
def policyNamed (pieces : List Piece) : Except Fault ExponentPolicy :=
  match Piece.text? pieces with
  | none => .error .malformed
  | some name =>
      match ExponentPolicy.ofName? (String.ofList name) with
      | some policy => .ok policy
      | none => .error .unfit

/-- What is wrong with a value in the place of `null`, if it is another one. -/
def checkNull : Value → Except Fault Unit
  | .null => .ok ()
  | .number _ magnitude => .error (if isOutOfRange magnitude then .malformed else .unfit)
  | .string pieces => .error (if (Piece.text? pieces).isSome then .unfit else .malformed)
  | _ => .error .unfit

/-- The policy that a value denotes, or what is wrong with the value. -/
def policyOf : Value → Except Fault ExponentPolicy
  | .string pieces => policyNamed pieces
  | .record ((name, value) :: more) =>
      match policyNamed name with
      | .error fault => .error fault
      | .ok policy =>
          match checkNull value with
          | .error fault => .error fault
          | .ok _ => if more.isEmpty then .ok policy else .error .malformed
  | _ => .error .malformed

theorem policyNamed_eq_ok_iff {pieces : List Piece} {policy : ExponentPolicy} :
    policyNamed pieces = .ok policy ↔ Piece.text? pieces = some policy.name.toList := by
  unfold policyNamed
  cases Piece.text? pieces with
  | none => simp
  | some name =>
      simp only [Option.some.injEq]
      rw [← ExponentPolicy.ofName?_eq_some_iff]
      cases ExponentPolicy.ofName? (String.ofList name) <;> simp

theorem checkNull_eq_ok_iff {value : Value} : checkNull value = .ok () ↔ value = .null := by
  cases value <;> simp [checkNull]

theorem policyOf_eq_ok_iff {value : Value} {policy : ExponentPolicy} :
    policyOf value = .ok policy ↔ Denotes value policy := by
  constructor
  · fun_cases policyOf value with
    | case1 name => exact fun hname => .name (policyNamed_eq_ok_iff.mp hname)
    | case2 | case3 | case5 | case6 => nofun
    | case4 name value more found hname _ hnull hmore =>
        -- The one member is the policy's name with the value `null`, and no other follows.
        rintro ⟨⟩
        rw [checkNull_eq_ok_iff.mp hnull, List.isEmpty_iff.mp hmore]
        exact .record (policyNamed_eq_ok_iff.mp hname)
  · intro h
    cases h with
    | name hname => exact policyNamed_eq_ok_iff.mpr hname
    | record hname => simp [policyOf, checkNull, policyNamed_eq_ok_iff.mpr hname]

/-! ## The parts of a policy -/

section Parts

variable {content text gap rest : List Char} {pieces : List Piece} {value : Value}

theorem takePolicyName_content (hcontent : ContentText content pieces) (rest : List Char) :
    takePolicyName (content ++ '"' :: rest) = (policyNamed pieces).map (·, rest) := by
  rw [takePolicyName, takeString_content hcontent, policyNamed]
  cases Piece.text? pieces with
  | none => rfl
  | some name =>
      simp only [Option.elim]
      cases ExponentPolicy.ofName? (String.ofList name) <;> rfl

private theorem exists_scanFraction {fraction power : List Char} {exponent : ℤ}
    (hfraction : Fraction fraction) (hpower : Power power exponent) : ∃ digits, ∀ rest,
      EndsNumber rest →
        Numeral.scanFraction (fraction ++ (power ++ rest)) = (digits, fraction.length) := by
  cases hfraction with
  | absent =>
      exact ⟨[], fun rest hrest =>
        Numeral.scanFraction_of_head fun c hc => (Numeral.head_power_append hpower hrest c hc).2⟩
  | @present digits _ hdigits =>
      refine ⟨digits, fun rest hrest => ?_⟩
      rw [List.cons_append, Numeral.scanFraction, takeWhile_append_of_head hdigits fun c hc =>
        (Numeral.head_power_append hpower hrest c hc).1, List.length_cons, Nat.add_comm]

/-- What follows a number has no say in whether it is out of range. -/
theorem isOutOfRange_append (hmagnitude : Magnitude text) (hrest : EndsNumber rest) :
    isOutOfRange (text ++ rest) = isOutOfRange text := by
  obtain @⟨whole, fraction, power, exponent, hwhole, hfraction, hpower⟩ := hmagnitude
  obtain ⟨digits, hscan⟩ := exists_scanFraction hfraction hpower
  -- Each of the three parts is cut off at the same place, whatever follows.
  have htake : ∀ rest, EndsNumber rest →
      (whole ++ (fraction ++ (power ++ rest))).takeWhile Char.isDigit = whole := fun rest hrest =>
    takeWhile_append_of_head hwhole.all_digits (head_fraction_append hfraction hpower hrest)
  have hdrop : ∀ rest, (whole ++ (fraction ++ (power ++ rest))).drop
      (whole.length + fraction.length) = power ++ rest := by
    intro rest
    rw [← List.drop_drop, List.drop_left, List.drop_left]
  have hnil : EndsNumber [] := by simp [EndsNumber]
  have hright : whole ++ (fraction ++ power) = whole ++ (fraction ++ (power ++ [])) := by simp
  rw [List.append_assoc, List.append_assoc, hright]
  simp only [isOutOfRange, htake _ hrest, htake _ hnil, List.drop_left, hscan _ hrest,
    hscan _ hnil, hdrop, Numeral.scanExponent_append hpower hrest,
    Numeral.scanExponent_append hpower hnil]

private theorem numberFault_append (hmagnitude : Magnitude text) (hrest : EndsNumber rest) :
    numberFault (text ++ rest) = if isOutOfRange text then .malformed else .unfit := by
  rw [numberFault, takeNumber_append .unfinished hmagnitude hrest,
    isOutOfRange_append hmagnitude hrest]

theorem shapeFault_word {c : Char} {word : String} (hc : (c, word) ∈ [('n', "ull"), ('t', "rue"),
    ('f', "alse")]) (rest : List Char) : shapeFault c (word.toList ++ rest) = .unfit := by
  simp only [List.mem_cons, Prod.mk.injEq, List.not_mem_nil, or_false] at hc
  have hword := takeWord_append word.toList rest
  rcases hc with ⟨rfl, rfl⟩ | ⟨rfl, rfl⟩ | ⟨rfl, rfl⟩ <;>
    simp only [shapeFault, Char.reduceEq, if_true, if_false, hword]

/-- A value that is not `null` is told by its start. -/
theorem checkNull_value (hvalue : ValueText text value) (hrest : Closes rest)
    (hnull : value ≠ .null) : ∃ c tail, text = c :: tail ∧ c ≠ 'n' ∧
      checkNull value = .error (shapeFault c (tail ++ rest)) := by
  cases hvalue with
  | null => exact absurd rfl hnull
  | bool value =>
      cases value with
      | true => exact ⟨'t', "rue".toList, rfl, by decide, by rw [shapeFault_word (by simp)]; rfl⟩
      | false => exact ⟨'f', "alse".toList, rfl, by decide, by rw [shapeFault_word (by simp)]; rfl⟩
  | number negative hmagnitude =>
      -- A number is read to its end before it is refused, as its size decides how.
      have hfault := numberFault_append hmagnitude hrest.endsNumber
      cases negative with
      | true => exact ⟨'-', _, rfl, by decide, by rw [checkNull, ← hfault]; rfl⟩
      | false =>
          obtain ⟨c, tail, rfl, hc⟩ := hmagnitude.head
          have hne : ∀ d, d.isDigit = false → c ≠ d := by
            rintro d hd rfl
            exact absurd hc (by simp [hd])
          refine ⟨c, tail, rfl, hne 'n' (by decide), ?_⟩
          rw [checkNull, ← hfault, shapeFault]
          simp only [hne 'n' (by decide), hne 't' (by decide), hne 'f' (by decide),
            hne '-' (by decide), hc, if_false, if_true]
          rfl
  | string hstring =>
      -- So is a string, since it may hold no text.
      obtain ⟨hcontent⟩ := hstring
      refine ⟨'"', _, rfl, by decide, ?_⟩
      rw [List.append_assoc, List.singleton_append, shapeFault]
      simp only [Char.reduceEq, Char.reduceIsDigit, Bool.false_eq_true, if_false, if_true,
        takeString_content hcontent rest, checkNull]
      cases Piece.text? _ <;> rfl
  -- Brackets are refused at sight.
  | list hitems => cases hitems <;> exact ⟨'[', _, rfl, by decide, rfl⟩
  | record hmembers => cases hmembers <;> exact ⟨'{', _, rfl, by decide, rfl⟩

private theorem takeNull_append (hgap : Spaces gap) (hvalue : ValueText text value)
    (hrest : Closes rest) :
    takeNull (gap ++ (text ++ rest)) = (checkNull value).map fun _ => rest := by
  rw [takeNull, skipSpaces_append hgap, skipSpaces_value hvalue]
  by_cases hnull : value = .null
  · subst hnull
    cases hvalue
    exact takeWord_append "ull".toList rest
  · obtain ⟨c, tail, rfl, hc, hcheck⟩ := checkNull_value hvalue hrest hnull
    simp [hcheck, Except.map]

/-! ## Policies -/

private theorem takePolicyObject_append {inner : List Char} {members : List (List Piece × Value)}
    (hmembers : Enclosed (MemberText ValueText) '{' '}' ('{' :: inner) members)
    (rest : List Char) :
    takePolicyObject (inner ++ rest) = (policyOf (.record members)).map (·, rest) := by
  cases hmembers with
  | empty hspaces =>
      rw [takePolicyObject, List.append_assoc, skipSpaces_append hspaces, List.singleton_append,
        skipSpaces_cons (by decide)]
      rfl
  | @items before _ after _ hbefore hmembers hafter =>
      obtain @⟨_, more, _, others, hmember, hmore⟩ := hmembers
      obtain @⟨_, colon, gap, item, pieces, value, ⟨hcontent⟩, hcolon, hgap, hvalue⟩ := hmember
      have hcloses : Closes (more ++ (after ++ '}' :: rest)) :=
        closes_behind hmore hafter (by decide) rest
      simp only [List.cons_append, List.append_assoc, List.nil_append]
      rw [takePolicyObject, skipSpaces_append hbefore, skipSpaces_cons (by decide)]
      simp only
      -- The name is looked up before the value is read, and after both nothing may follow.
      rw [takePolicyName_content hcontent, policyOf]
      cases policyNamed pieces with
      | error fault => rfl
      | ok policy =>
          simp only [Except.map, takeColon_append hcolon, takeNull_append hgap hvalue hcloses]
          cases checkNull value with
          | error fault => rfl
          | ok _ =>
              simp only
              cases hmore with
              | nil =>
                  rw [List.nil_append, skipSpaces_append hafter, skipSpaces_cons (by decide)]
                  rfl
              | cons hcomma =>
                  rw [List.append_assoc, skipSpaces_append hcomma, List.cons_append,
                    skipSpaces_cons (by decide)]
                  rfl

private theorem takePolicy_append (hgap : Spaces gap) (hvalue : ValueText text value) :
    takePolicy (gap ++ (text ++ rest)) = (policyOf value).map (·, rest) := by
  rw [takePolicy, skipSpaces_append hgap, skipSpaces_value hvalue]
  cases hvalue with
  | null => rfl
  | bool value => cases value <;> rfl
  | number negative hmagnitude =>
      -- A digit is neither the quotation mark of a name nor the brace of a record.
      obtain ⟨c, tail, rfl, hc⟩ := hmagnitude.head
      cases negative with
      | true => rfl
      | false =>
          have hquote : c ≠ '"' := by
            rintro rfl
            cases hc
          have hbrace : c ≠ '{' := by
            rintro rfl
            cases hc
          simp [writeSign, hquote, hbrace, policyOf]
          rfl
  | string hstring =>
      obtain ⟨hcontent⟩ := hstring
      simp only [List.cons_append, List.append_assoc, List.nil_append]
      rw [takePolicyName_content hcontent, policyOf]
  | list hitems => cases hitems <;> rfl
  | record hmembers =>
      obtain ⟨inner, rfl⟩ := hmembers.head
      exact takePolicyObject_append hmembers rest

end Parts

/-! ## Members -/

/-- What is left of the policies, in their order: none or one, which has to be in order itself. -/
def settle (found : Option ExponentPolicy) : List Value → Except Fault (Option ExponentPolicy)
  | [] => .ok found
  | value :: values =>
      if found.isSome then .error .unfit
      else
        match policyOf value with
        | .error fault => .error fault
        | .ok policy => settle (some policy) values

theorem settle_append (found : Option ExponentPolicy) (values more : List Value) :
    settle found (values ++ more) = (settle found values).bind (settle · more) := by
  fun_induction settle found values with
  | case1 => rfl
  | case2 found value values hfound =>
      rw [List.cons_append, settle, if_pos hfound]
      rfl
  | case3 found value values hfound fault hpolicy =>
      rw [List.cons_append, settle, if_neg hfound, hpolicy]
      rfl
  | case4 found value values hfound policy hpolicy ih =>
      rw [List.cons_append, settle, if_neg hfound, hpolicy]
      exact ih

/-- The values of the members that hold a policy. -/
def policies (members : List (List Piece × Value)) : List Value :=
  valuesNamed policyMember.toList members

theorem policies_cons (member : List Piece × Value) (members : List (List Piece × Value)) :
    policies (member :: members) = policies [member] ++ policies members := by
  simp only [policies, valuesNamed, ← List.filterMap_append, List.singleton_append]

section Members

variable {found : Option ExponentPolicy} {cs rest : List Char}

/-- A member counts by its policy, if it holds one, and is passed over otherwise. -/
theorem takeMember_append {text : List Char} {member : List Piece × Value}
    (hmember : MemberText ValueText text member) (hname : (Piece.text? member.1).isSome)
    (hrest : Closes rest) : ∃ inner, text = '"' :: inner ∧ ∀ found,
      takeMember found (inner ++ rest) = (settle found (policies [member])).map (·, rest) := by
  obtain @⟨_, colon, gap, item, pieces, value, ⟨hcontent⟩, hcolon, hgap, hvalue⟩ := hmember
  obtain ⟨name, hname⟩ := Option.isSome_iff_exists.mp hname
  refine ⟨_, rfl, fun found => ?_⟩
  simp only [List.append_eq, List.append_assoc, List.cons_append, List.nil_append]
  rw [takeMember, takeString_content hcontent, hname]
  by_cases hpolicy : name = policyMember.toList
  · have hpolicies : policies [(pieces, value)] = [value] := by
      simp [policies, valuesNamed, hname, hpolicy]
    simp only [Option.elim, if_pos hpolicy, hpolicies, settle, takeColon_append hcolon,
      takePolicy_append hgap hvalue]
    split
    · rfl
    · cases policyOf value <;> rfl
  · have hpolicies : policies [(pieces, value)] = [] := by
      simp [policies, valuesNamed, hname, hpolicy]
    simp only [Option.elim, if_neg hpolicy, hpolicies, settle, takeColon_append hcolon,
      skipValue_append hgap hvalue hrest]
    rfl

private theorem takeMembers_close (hclose : skipSpaces cs = '}' :: rest) :
    takeMembers found cs = .ok (found, rest) := by
  rw [takeMembers]
  split <;> simp_all

private theorem takeMembers_next {inner name : List Char} (hcomma : skipSpaces cs = ',' :: inner)
    (hquote : skipSpaces inner = '"' :: name) :
    takeMembers found cs =
      (takeMember found name).bind fun (found, rest) => takeMembers found rest := by
  conv_lhs => rw [takeMembers]
  -- The text behind the spaces is put for `skipSpaces` everywhere, so that the choices are settled.
  generalize skipSpaces cs = comma at hcomma ⊢
  subst hcomma
  simp only
  generalize skipSpaces inner = quote at hquote ⊢
  subst hquote
  simp only
  cases takeMember found name <;> rfl

private theorem takeMembers_append {more after : List Char} {members : List (List Piece × Value)}
    (hmore : MoreText (MemberText ValueText) more members) (hafter : Spaces after)
    (hnames : ∀ member ∈ members, (Piece.text? member.1).isSome) :
    takeMembers found (more ++ (after ++ '}' :: rest)) =
      (settle found (policies members)).map (·, rest) := by
  induction hmore generalizing found with
  | nil =>
      refine takeMembers_close ?_
      rw [List.nil_append, skipSpaces_append hafter, skipSpaces_cons (by decide)]
  | @cons before gap _ more member members hcomma hgap hmember hmore ih =>
      obtain ⟨hname, hnames⟩ := List.forall_mem_cons.mp hnames
      have hcloses : Closes (more ++ (after ++ '}' :: rest)) :=
        closes_behind hmore hafter (by decide) rest
      obtain ⟨inner, rfl, htake⟩ := takeMember_append hmember hname hcloses
      simp only [List.append_assoc, List.cons_append]
      rw [takeMembers_next (by rw [skipSpaces_append hcomma, skipSpaces_cons (by decide)])
        (by rw [skipSpaces_append hgap, skipSpaces_cons (by decide)]), htake,
        policies_cons member members, settle_append]
      -- A fault hides what follows; without one, the rest is read with the policy found so far.
      cases settle found (policies [member]) with
      | error fault => rfl
      | ok found => exact ih hnames

private theorem takeObject_append {inner : List Char} {members : List (List Piece × Value)}
    (hmembers : Enclosed (MemberText ValueText) '{' '}' ('{' :: inner) members)
    (hnames : ∀ member ∈ members, (Piece.text? member.1).isSome) :
    takeObject (inner ++ rest) = (settle none (policies members)).map (·, rest) := by
  cases hmembers with
  | empty hspaces =>
      rw [takeObject, List.append_assoc, skipSpaces_append hspaces, List.singleton_append,
        skipSpaces_cons (by decide)]
      rfl
  | @items before _ after _ hbefore hmembers hafter =>
      obtain @⟨_, more, member, others, hmember, hmore⟩ := hmembers
      obtain ⟨hname, hnames⟩ := List.forall_mem_cons.mp hnames
      have hcloses : Closes (more ++ (after ++ '}' :: rest)) :=
        closes_behind hmore hafter (by decide) rest
      obtain ⟨inner, rfl, htake⟩ := takeMember_append hmember hname hcloses
      simp only [List.cons_append, List.append_assoc, List.nil_append]
      rw [takeObject, skipSpaces_append hbefore, skipSpaces_cons (by decide)]
      simp only
      rw [htake, policies_cons member others, settle_append]
      cases settle none (policies [member]) with
      | error fault => rfl
      | ok found => exact takeMembers_append hmore hafter hnames

end Members

/-! ## Documents -/

/-- A document is read by its policies alone. -/
theorem read_object {document : String} {members : List (List Piece × Value)}
    (hdocument : ObjectText document.toList members)
    (hnames : ∀ member ∈ members, (Piece.text? member.1).isSome) :
    read document = (settle none (policies members)).map fun policy? =>
      ⟨policy?.getD .integerOnly⟩ := by
  generalize htext : document.toList = text at hdocument
  obtain @⟨start, text, finish, members, hstart, hmembers, hfinish⟩ := hdocument
  have htake : takeConfig (start ++ (text ++ finish)) =
      (settle none (policies members)).map (·, finish) := by
    obtain ⟨inner, rfl⟩ := hmembers.head
    rw [takeConfig, skipSpaces_append hstart, List.cons_append, skipSpaces_cons (by decide)]
    exact takeObject_append hmembers hnames
  rw [read, htext, htake]
  cases settle none (policies members) with
  | error fault => rfl
  | ok policy? => simp [Except.map, skipSpaces_eq_nil hfinish]

/-- What the policies of a document come to, where they are in order. -/
inductive Decides (members : List (List Piece × Value)) : ExponentPolicy → Prop
  | absent (hpolicies : policies members = []) : Decides members .integerOnly
  | present {value : Value} {policy : ExponentPolicy} (hpolicies : policies members = [value])
      (hvalue : Denotes value policy) : Decides members policy

theorem Denotes.unique {value : Value} {policy policy' : ExponentPolicy}
    (h : Denotes value policy) (h' : Denotes value policy') : policy = policy' :=
  Except.ok.inj ((policyOf_eq_ok_iff.mpr h).symm.trans (policyOf_eq_ok_iff.mpr h'))

theorem Decides.unique {members : List (List Piece × Value)} {policy policy' : ExponentPolicy}
    (h : Decides members policy) (h' : Decides members policy') : policy = policy' := by
  cases h with
  | absent hpolicies =>
      cases h' with
      | absent => rfl
      | present hpolicies' => simp [hpolicies] at hpolicies'
  | present hpolicies hvalue =>
      cases h' with
      | absent hpolicies' => simp [hpolicies] at hpolicies'
      | present hpolicies' hvalue' =>
          rw [hpolicies] at hpolicies'
          cases hpolicies'
          exact hvalue.unique hvalue'

theorem settle_none_iff {members : List (List Piece × Value)} {policy : ExponentPolicy} :
    (settle none (policies members)).map (·.getD .integerOnly) = .ok policy ↔
      Decides members policy := by
  constructor
  · intro h
    cases hpolicies : policies members with
    | nil =>
        rw [hpolicies] at h
        cases h
        exact .absent hpolicies
    | cons value values =>
        rw [hpolicies, settle, if_neg (by simp)] at h
        cases hvalue : policyOf value with
        | error fault => simp [hvalue, Except.map] at h
        | ok found =>
            cases values with
            | nil =>
                rw [hvalue] at h
                cases h
                exact .present hpolicies (policyOf_eq_ok_iff.mp hvalue)
            | cons second values => simp [hvalue, settle, Except.map] at h
  · intro h
    cases h with
    | absent hpolicies =>
        rw [hpolicies]
        rfl
    | present hpolicies hvalue =>
        rw [hpolicies, settle, if_neg (by simp), policyOf_eq_ok_iff.mpr hvalue]
        rfl

/-- A configuration is written as an object with one member. -/
theorem exists_objectText_write (config : NormConfig) : ∃ name value,
    ObjectText config.write.toList [(name, .string value)] ∧
      Piece.text? name = some policyMember.toList ∧
      Piece.text? value = some config.policy.name.toList := by
  obtain ⟨name, hname, hnameText⟩ := Text.exists_stringText_quote policyMember.toList
  obtain ⟨value, hvalue, hvalueText⟩ := Text.exists_stringText_quote config.policy.name.toList
  have hspaces := Grammar.spaces_nil
  have hmember := MemberText.mk hname hspaces hspaces (ValueText.string hvalue)
  have hobject := ObjectText.mk hspaces (.items hspaces (.cons hmember .nil) hspaces) hspaces
  refine ⟨name, value, ?_, hnameText, hvalueText⟩
  simpa [write] using hobject

/-- **Only the policy decides a configuration.**  A document whose member names are texts is read as
a configuration exactly if at most one of its members holds a policy and that one denotes it, and
the configuration has this policy, or `integerOnly` without one.  Two such documents with the same
policies are read alike, down to their faults, whatever else is in them.  And what a configuration
is written as is read as that configuration. -/
theorem only_policies_decide (document : String) (members : List (List Piece × Value))
    (hdocument : ObjectText document.toList members)
    (hnames : ∀ member ∈ members, (Piece.text? member.1).isSome) :
    (∀ config, read document = .ok config ↔ Decides members config.policy) ∧
    (∀ (document' : String) (members' : List (List Piece × Value)),
      ObjectText document'.toList members' →
      (∀ member ∈ members', (Piece.text? member.1).isSome) →
      policies members' = policies members → read document' = read document) ∧
    ∀ config : NormConfig, read config.write = .ok config := by
  have hread : ∀ {document : String} {members : List (List Piece × Value)},
      ObjectText document.toList members →
      (∀ member ∈ members, (Piece.text? member.1).isSome) →
      ∀ config, read document = .ok config ↔ Decides members config.policy := by
    intro document members hdocument hnames config
    rw [read_object hdocument hnames, ← settle_none_iff]
    cases settle none (policies members) with
    | error fault => simp [Except.map]
    | ok policy? =>
        obtain ⟨policy⟩ := config
        simp [Except.map]
  refine ⟨hread hdocument hnames, ?_, ?_⟩
  · intro document' members' hdocument' hnames' hpolicies
    rw [read_object hdocument hnames, read_object hdocument' hnames', hpolicies]
  · intro config
    obtain ⟨name, value, hobject, hname, hvalue⟩ := exists_objectText_write config
    refine (hread hobject (by simp [hname]) config).mpr (.present ?_ (.name hvalue))
    simp [policies, valuesNamed, hname]

/-- The name of the member may be written with an escape, and other members may hold anything. -/
theorem escaped_name_decides :
    let document :=
      "\x7b\"other\": [\x7b\x7d], \"exponent\\u005fpolicy\":\x7b\"allow_fractional\":null\x7d\x7d"
    let name := "exponent".toList.map Piece.char ++ .unit 0x5f :: "policy".toList.map Piece.char
    let members := [("other".toList.map Piece.char, Value.list [.record []]),
      (name, .record [("allow_fractional".toList.map Piece.char, .null)])]
    ObjectText document.toList members ∧
      (∀ member ∈ members, (Piece.text? member.1).isSome) ∧
      read document = .ok ⟨.allowFractional⟩ := by
  intro document name members
  have hother := stringText_plain "other".toList (by decide +kernel)
  have hpolicy := stringText_plain "allow_fractional".toList (by decide +kernel)
  have hzero : HexDigit '0' 0 := ⟨by decide, by decide⟩
  have hfive : HexDigit '5' 5 := ⟨by decide, by decide⟩
  have hlast : HexDigit 'f' 15 := ⟨by decide, by decide⟩
  -- The name in three parts: plain, the escape, plain.
  have hback := contentText_plain "policy".toList (by decide +kernel) .nil
  have hfront := contentText_plain "exponent".toList (by decide +kernel)
    (.cons (.unit hzero hzero hfive hlast) hback)
  have hname := StringText.mk hfront
  have hnone := Grammar.spaces_nil
  have hspace : Spaces [' '] := by simp [Spaces, Text.isSpace]
  -- The two members, from the inside out.
  have hfirst := MemberText.mk hother hnone hspace
    (ValueText.list (.items hnone (.cons (.record (.empty hnone)) .nil) hnone))
  have hinner := MemberText.mk hpolicy hnone hnone ValueText.null
  have hsecond := MemberText.mk hname hnone hnone
    (ValueText.record (.items hnone (.cons hinner .nil) hnone))
  have hobject := ObjectText.mk hnone
    (.items hnone (.cons hfirst (.cons hnone hspace hsecond .nil)) hnone) hnone
  have hdocument : ObjectText document.toList members := by
    simpa [document, members, name] using hobject
  have hnames : ∀ member ∈ members, (Piece.text? member.1).isSome := by decide +kernel
  obtain ⟨hread, -, -⟩ := only_policies_decide document members hdocument hnames
  refine ⟨hdocument, hnames, (hread ⟨.allowFractional⟩).mpr ?_⟩
  have hpolicies :
      policies members = [.record [("allow_fractional".toList.map Piece.char, .null)]] :=
    rfl
  exact .present hpolicies (.record (text?_plain _))

end NormConfig

end PNorm
