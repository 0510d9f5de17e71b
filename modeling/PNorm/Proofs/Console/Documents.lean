import PNorm.Proofs.Config.Reading
import PNorm.Proofs.Console.ReadBack
import PNorm.Proofs.Console.Start
import PNorm.Proofs.Json.Unique

/-!
# What a document tells

The document of an evaluation is JSON, and there is one way only to read it as
such.  Its members tell the expression to the character, the policy, and a value
that is finite to the bit (`Reports`).  A value that is not finite they do not
tell: JSON has no numbers for NaN and the infinities, and the document has `null`
for all three of them.  So two evaluations have the same document exactly if they
agree in all of this (`documents_tell_finite_values`), and NaN cannot be told
from an overflow there (`nan_and_infinity_in_one_document`), as it can in plain
text.

That a document can be read back is put together from three parts: it is written as the
grammar of JSON says (`PNorm.Proofs.Json.Written`), a text of that grammar has one value
(`PNorm.Proofs.Json.Unique`), and the shortest decimal of a double is read as that double
(`PNorm.Proofs.Number.Shortest`).
-/

namespace PNorm

open Json
open Grammar (NumberText Spaces)

namespace Result

/-! ## The value -/

/-- A finite double. -/
def IsFinite (x : Float) : Prop :=
  ∃ negative steps depth, FloatArith.exactValue x = .finite negative steps depth

/-- What a JSON value tells of a double: a number tells which finite one it is, and `null` only that
it is none of these. -/
inductive Tells : Value → Float → Prop
  | number {negative : Bool} {text : List Char} {x : Float} (hfinite : IsFinite x)
      (htext : NumberText (writeSign negative text) x) : Tells (.number negative text) x
  | null {x : Float} (hspecial : ¬ IsFinite x) : Tells .null x

theorem documentNumber_of_not_isFinite {x : Float} (hx : ¬ IsFinite x) :
    documentNumber x = "null".toList := by
  fun_cases documentNumber x with
  | case1 negative steps depth hvalue => exact absurd ⟨negative, steps, depth, hvalue⟩ hx
  | case2 => rfl

/-- The number of a document is JSON, and tells the value. -/
theorem exists_valueText_documentNumber (x : Float) :
    ∃ value, ValueText (documentNumber x) value ∧ Tells value x := by
  by_cases hfinite : IsFinite x
  · obtain ⟨_, _, _, hsteps⟩ := id hfinite
    rcases double_cases x with ⟨hvalue, -⟩ | ⟨negative, hvalue, -⟩ |
      ⟨negative, bits, hbits, hvalue, hx⟩
    · rw [hvalue] at hsteps
      cases hsteps
    · rw [hvalue] at hsteps
      cases hsteps
    · have hnumber := ValueText.number negative
        (Decimal.magnitude_write_shortest .double documentStyle.tie
          (BinaryFormat.double.steps bits) BinaryFormat.double.depth)
      have htext := numberText_writeShortest documentStyle negative hbits
      rw [← hx] at htext
      simp only [documentNumber, hvalue]
      exact ⟨_, hnumber, .number hfinite htext⟩
  · rw [documentNumber_of_not_isFinite hfinite]
    exact ⟨.null, .null, .null hfinite⟩

/-- What is told of two doubles by one value is the same, unless both are special. -/
theorem Tells.unique {value : Value} {x y : Float} (hx : Tells value x) (hy : Tells value y) :
    x = y ∨ ¬ IsFinite x ∧ ¬ IsFinite y := by
  cases hx with
  | number _ htext =>
      cases hy with
      | number _ htext' =>
          exact .inl (Argument.number.inj
            (Call.argumentText_unique (.number htext) (.number htext')))
  | null hspecial =>
      cases hy with
      | null hspecial' => exact .inr ⟨hspecial, hspecial'⟩

/-! ## The document -/

/-- What the members of a document tell: the expression to the character, the value as far as
`Tells` goes, and the policy. -/
structure Reports (members : List (List Piece × Value)) (expression : String) (value : Float)
    (policy : ExponentPolicy) : Prop where
  expression : ∃ pieces, valuesNamed "expression".toList members = [.string pieces] ∧
    Piece.text? pieces = some expression.toList
  value : ∃ told, valuesNamed "value".toList members = [told] ∧ Tells told value
  policy : ∃ inner, valuesNamed "config".toList members = [.record inner] ∧
    NormConfig.Decides inner policy

/-- The members of a document. -/
def documentMembers (expression : List Piece) (told : Value) (policy : List Piece) :
    List (List Piece × Value) :=
  [("expression".toList.map Piece.char, .string expression),
    ("value".toList.map Piece.char, told),
    ("config".toList.map Piece.char,
      .record [("exponent_policy".toList.map Piece.char, .string policy)])]

theorem exists_reports_document (expression : String) (value : Float) (policy : ExponentPolicy) :
    ∃ members, ObjectText (document expression value policy ++ "\n").toList members ∧
      Reports members expression value policy := by
  obtain ⟨pieces, hexpression, hpieces⟩ := Text.exists_stringText_quote expression.toList
  obtain ⟨told, hvalue, htold⟩ := exists_valueText_documentNumber value
  obtain ⟨name, hpolicy, hname⟩ := Text.exists_stringText_quote policy.name.toList
  have hnone := Grammar.spaces_nil
  have hgap : Spaces [' '] := by simp [Spaces, Text.isSpace]
  have hline : Spaces "\n".toList := by simp [Spaces, Text.isSpace]
  have hindent : Spaces "\n  ".toList := by simp [Spaces, Text.isSpace]
  have hindents : Spaces "\n    ".toList := by simp [Spaces, Text.isSpace]
  have hfirst := MemberText.mk (stringText_plain "expression".toList (by decide +kernel)) hnone hgap
    (ValueText.string hexpression)
  have hsecond := MemberText.mk (stringText_plain "value".toList (by decide +kernel)) hnone hgap
    hvalue
  have hinner := MemberText.mk (stringText_plain "exponent_policy".toList (by decide +kernel)) hnone
    hgap (ValueText.string hpolicy)
  have hthird := MemberText.mk (stringText_plain "config".toList (by decide +kernel)) hnone hgap
    (ValueText.record (.items hindents (.cons hinner .nil) hindent))
  have hobject := ObjectText.mk hnone (.items hindent (.cons hfirst (.cons hnone hindent hsecond
    (.cons hnone hindent hthird .nil))) hline) hline
  refine ⟨documentMembers pieces told name, ?_, ⟨pieces, rfl, hpieces⟩, ⟨told, rfl, htold⟩,
    ⟨_, rfl, .present rfl (.name hname)⟩⟩
  simpa [document, documentMembers] using hobject

/-- Documents that tell the same are of the same expression and policy, and of the same value unless
both values are special. -/
theorem Reports.unique {members : List (List Piece × Value)} {expression expression' : String}
    {value value' : Float} {policy policy' : ExponentPolicy}
    (h : Reports members expression value policy)
    (h' : Reports members expression' value' policy') :
    expression = expression' ∧ policy = policy' ∧
      (value = value' ∨ ¬ IsFinite value ∧ ¬ IsFinite value') := by
  obtain ⟨⟨pieces, hexpression, hpieces⟩, ⟨told, hvalue, htold⟩, inner, hconfig, hpolicy⟩ := h
  obtain ⟨⟨pieces', hexpression', hpieces'⟩, ⟨told', hvalue', htold'⟩, inner', hconfig',
    hpolicy'⟩ := h'
  rw [hexpression] at hexpression'
  rw [hvalue] at hvalue'
  rw [hconfig] at hconfig'
  cases hexpression'
  cases hvalue'
  cases hconfig'
  rw [hpieces] at hpieces'
  exact ⟨String.toList_inj.mp (Option.some.inj hpieces'), hpolicy.unique hpolicy',
    htold.unique htold'⟩

theorem document_congr {expression : String} {value value' : Float} {policy : ExponentPolicy}
    (hvalue : ¬ IsFinite value) (hvalue' : ¬ IsFinite value') :
    document expression value policy = document expression value' policy := by
  simp only [document, documentNumber_of_not_isFinite hvalue,
    documentNumber_of_not_isFinite hvalue']

end Result

namespace Run

open Result

/-- A line that asks for a document of an expression, and the value and the policy that the document
is of. -/
inductive Documents (args : List String) (expression : String) (value : Float) :
    ExponentPolicy → Prop
  | mk {settings : Settings} {places? : Option Nat}
      (hread : Arguments.read args = .ok (.run settings (.evaluate expression places? true)))
      (hends : Ends settings expression (.ok value)) :
      Documents args expression value settings.policy

theorem commandLine_document {args : List String} {expression : String} {value : Float}
    {policy : ExponentPolicy} (hrun : Documents args expression value policy) :
    commandLine args = .printed (document expression value policy ++ "\n") := by
  obtain ⟨hread, hends⟩ := hrun
  rw [commandLine, hread]
  simp only [eval, ends_iff.mp hends, if_true]

/-- **A document tells its expression, its policy and a finite value.** -/
theorem documents_tell_finite_values (args : List String) (expression : String) (value : Float)
    (policy : ExponentPolicy) (hrun : Documents args expression value policy) :
    (commandLine args).exitCode = 0 ∧
    (∃ members, Reports members expression value policy ∧ ∀ members',
      ObjectText (commandLine args).stdout.toList members' ↔ members' = members) ∧
    ∀ (args' : List String) (expression' : String) (value' : Float) (policy' : ExponentPolicy),
      Documents args' expression' value' policy' →
      ((commandLine args').stdout = (commandLine args).stdout ↔
        expression' = expression ∧ policy' = policy ∧
          (value' = value ∨ ¬ IsFinite value' ∧ ¬ IsFinite value)) := by
  rw [commandLine_document hrun]
  obtain ⟨members, hobject, hreports⟩ := exists_reports_document expression value policy
  refine ⟨rfl, ⟨members, hreports, fun members' => ⟨fun h => h.unique hobject, ?_⟩⟩, ?_⟩
  · rintro rfl
    exact hobject
  · intro args' expression' value' policy' hrun'
    rw [commandLine_document hrun']
    constructor
    · intro heq
      obtain ⟨members', hobject', hreports'⟩ := exists_reports_document expression' value' policy'
      simp only [Outcome.stdout] at heq
      rw [heq] at hobject'
      rw [hobject'.unique hobject] at hreports'
      exact hreports'.unique hreports
    · rintro ⟨rfl, rfl, rfl | ⟨hvalue', hvalue⟩⟩
      · rfl
      · rw [document_congr hvalue' hvalue]

/-- The tab in this expression is told as well. -/
theorem document_of_five :
    let args := ["eval", "norm([3,\t4])", "--json"]
    Documents args "norm([3,\t4])" 5.0 .integerOnly ∧ (commandLine args).exitCode = 0 ∧
      ∃ members, Reports members "norm([3,\t4])" 5.0 .integerOnly ∧ ∀ members',
        ObjectText (commandLine args).stdout.toList members' ↔ members' = members := by
  intro args
  have hread : Arguments.read args =
      .ok (.run ⟨[], [], false⟩ (.evaluate "norm([3,\t4])" none true)) := by decide +kernel
  have hends : Ends ⟨[], [], false⟩ "norm([3,\t4])" (.ok 5.0) := by
    have hparse : Call.parse "norm([3,\t4])" = .ok ⟨"norm", [.vector [3.0, 4.0]]⟩ := by
      decide +kernel
    have hfive : Norm.apply .integerOnly 0 [.vector [3.0, 4.0]] = (5.0 : Float) := by
      decide +kernel
    rw [← hfive]
    exact ends_norm false hparse rfl rfl
  have hrun : Documents args "norm([3,\t4])" 5.0 .integerOnly := .mk hread hends
  obtain ⟨hexit, hmembers, -⟩ := documents_tell_finite_values args _ 5.0 .integerOnly hrun
  exact ⟨hrun, hexit, hmembers⟩

/-! ## Special values -/

/-- NaN and infinity come out in one document. -/
theorem nan_and_infinity_in_one_document :
    let args := ["eval", "norm(x,1)", "--json", "--vector", "x=NaN"]
    let args' := ["eval", "norm(x,1)", "--json", "--vector", "x=inf"]
    let infinity := Numeral.signed false BinaryFormat.double.infinityBits
    Documents args "norm(x,1)" FloatArith.nan .integerOnly ∧
      Documents args' "norm(x,1)" infinity .integerOnly ∧ FloatArith.nan ≠ infinity ∧
      (commandLine args).stdout = (commandLine args').stdout := by
  intro args args' infinity
  have hends : ∀ x : Float, Ends ⟨[⟨"x", [x]⟩], [], false⟩ "norm(x,1)"
      (.ok (Norm.apply .integerOnly 1 [.vector [x], .scalar 1.0])) := by
    intro x
    -- Both lines bind one number, and the norm of one number is computed from it.
    have hparse : Call.parse "norm(x,1)" = .ok ⟨"norm", [.identifier "x", .number 1.0]⟩ := by
      decide +kernel
    have hnames : (∀ name ∈ ["x"], isSymbolName name = true ∧ name ≠ "norm") ∧ ["x"].Nodup := by
      decide
    have hexists : ∃ s, start ⟨[⟨"x", [x]⟩], [], false⟩ = .ok s := exists_start_iff.mpr hnames
    obtain ⟨s, hstart⟩ := hexists
    have hvector : s.vector? "x" = some [x] :=
      vector?_of_start hstart (List.mem_singleton_self (⟨"x", [x]⟩ : VectorBinding))
    have hoperands : s.operands [.identifier "x", .number 1.0] =
        .ok [.vector [x], .scalar 1.0] := by
      simp only [Session.operands, Session.operand, hvector]
      rfl
    rw [ends_iff, hstart, Except.bind, evaluate,
      Norm.evaluate_norm (function?_norm_of_start hstart) hparse hoperands rfl]
    rfl
  have hnan : Documents args "norm(x,1)" FloatArith.nan .integerOnly := by
    have hread : Arguments.read args = .ok (.run ⟨[⟨"x", [FloatArith.nan]⟩], [], false⟩
        (.evaluate "norm(x,1)" none true)) := by decide +kernel
    have hvalue : Norm.apply .integerOnly 1 [.vector [FloatArith.nan], .scalar 1.0] =
        (FloatArith.nan : Float) := by decide +kernel
    have hresult := hends FloatArith.nan
    rw [hvalue] at hresult
    exact .mk hread hresult
  have hinfinity : Documents args' "norm(x,1)" infinity .integerOnly := by
    have hread : Arguments.read args' = .ok (.run ⟨[⟨"x", [infinity]⟩], [], false⟩
        (.evaluate "norm(x,1)" none true)) := by decide +kernel
    have hvalue : Norm.apply .integerOnly 1 [.vector [infinity], .scalar 1.0] = infinity := by
      decide +kernel
    have hresult := hends infinity
    rw [hvalue] at hresult
    exact .mk hread hresult
  -- Neither value is finite, so that both are written as `null`.
  have hspecial : ¬ IsFinite FloatArith.nan ∧ ¬ IsFinite infinity := by
    have hvalue : FloatArith.exactValue (FloatArith.nan : Float) = .nan := by decide +kernel
    have hvalue' : FloatArith.exactValue infinity = .infinite false := by decide +kernel
    constructor <;> rintro ⟨_, _, _, hfinite⟩
    · rw [hvalue] at hfinite
      cases hfinite
    · rw [hvalue'] at hfinite
      cases hfinite
  refine ⟨hnan, hinfinity, by decide +kernel, ?_⟩
  rw [commandLine_document hnan, commandLine_document hinfinity,
    document_congr hspecial.1 hspecial.2]

end Run

end PNorm
