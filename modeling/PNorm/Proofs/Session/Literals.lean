import PNorm.Proofs.Session.Outcome

/-!
# Names and literals mean the same

A call over doubles does not tell where an operand comes from.  An identifier
that is bound may be written out as the literal of what its cell holds at the
time, at any of the places where it stands and not at others, and the call comes
to the same value or the same refusal.  The literal of a double is that double,
which is all that this needs; in single precision a literal would be rounded.

The other half is that the places of an argument list do not touch each other:
each argument has its operand or its error by itself
(`WellFormed.operands_eq_ok_iff_forall₂`), however often its name occurs.

A choice of places is a relation between two argument lists of the same length,
which says of each place that the argument stays or is written out.  So the main
statement covers all choices at once, and the proof is about one place.
-/

namespace PNorm.Session

/-- `arg'` is `arg`, or the literal of what `arg` is bound to. -/
inductive WrittenOut (s : Session Float) : Argument → Argument → Prop
  | kept (arg : Argument) : WrittenOut s arg arg
  | vector {name : String} {values : List Float} (hvalues : s.vector? name = some values) :
      WrittenOut s (.identifier name) (.vector values)
  | scalar {name : String} {value : Float} (hvalue : s.scalar? name = some value) :
      WrittenOut s (.identifier name) (.number value)

section Arguments

variable {s : Session Float}

/-- A literal stands for the same operand as the name it was written for. -/
theorem WellFormed.operand_writtenOut (hs : s.WellFormed) {arg arg' : Argument}
    (harg : s.WrittenOut arg arg') : s.operand arg' = s.operand arg := by
  cases harg with
  | kept => rfl
  | @vector name values hvalues =>
      have hliteral : values.map FloatArith.ofDouble = values := List.map_id values
      rw [operand, operand, hvalues, hliteral]
  | @scalar name value hvalue =>
      have hvector : s.vector? name = none := by
        by_contra hsome
        obtain ⟨values, hvalues⟩ := Option.ne_none_iff_exists'.mp hsome
        rw [hs.scalar?_of_vector? hvalues] at hvalue
        cases hvalue
      rw [operand, operand, hvector, hvalue]
      rfl

theorem WellFormed.operands_writtenOut (hs : s.WellFormed) {args args' : List Argument}
    (hargs : List.Forall₂ s.WrittenOut args args') : s.operands args' = s.operands args := by
  induction hargs with
  | nil => rfl
  | cons harg _ ih => rw [operands, operands, hs.operand_writtenOut harg, ih]

/-- A name with a value can be written out. -/
theorem exists_writtenOut {name : String} {operand : Operand Float}
    (hoperand : s.Carries (.identifier name) operand) :
    (∃ values, s.WrittenOut (.identifier name) (.vector values)) ∨
      ∃ value, s.WrittenOut (.identifier name) (.number value) := by
  rcases carries_identifier_iff.mp hoperand with ⟨values, hvalues, -⟩ | ⟨value, hvalue, -⟩
  · exact .inl ⟨values, .vector hvalues⟩
  · exact .inr ⟨value, .scalar hvalue⟩

end Arguments

/-- Every place of an argument list has its operand by itself. -/
theorem WellFormed.operands_eq_ok_iff_forall₂ {α : Type} [FloatArith α] {s : Session α}
    (hs : s.WellFormed) {args : List Argument} {operands : List (Operand α)} :
    s.operands args = .ok operands ↔
      List.Forall₂ (fun arg operand => s.operand arg = .ok operand) args operands := by
  rw [hs.operands_eq_ok_iff]
  simp only [hs.operand_eq_ok_iff]

/-- **Writing out a name changes no outcome.**  In every session over doubles, any of the
identifiers of a call that are bound may be replaced by their values: the call has the same value or
the same error.  Every name that is bound to a value can be replaced, and one name may stand at
several places. -/
theorem names_can_be_written_out (actions : List (Action Float)) :
    let s := (Host.empty.run actions).session
    (∀ call args, List.Forall₂ s.WrittenOut call.args args →
      s.evaluateCall ⟨call.name, args⟩ = s.evaluateCall call) ∧
    (∀ name, ¬ s.Undefined name → (∃ values, s.WrittenOut (.identifier name) (.vector values)) ∨
      ∃ value, s.WrittenOut (.identifier name) (.number value)) ∧
    ∀ args operands, s.operands args = .ok operands ↔
      List.Forall₂ (fun arg operand => s.operand arg = .ok operand) args operands := by
  intro s
  have hs : s.WellFormed := (Host.wellFormed_empty.run actions).session
  refine ⟨?_, ?_, fun args operands => hs.operands_eq_ok_iff_forall₂⟩
  · intro call args hargs
    rw [evaluateCall, evaluateCall, hs.operands_writtenOut hargs]
  · intro name hname
    cases hoperand : s.operand (.identifier name) with
    | ok operand => exact exists_writtenOut (hs.operand_eq_ok_iff.mp hoperand)
    | error error =>
        obtain ⟨other, hother, hundefined, -⟩ := hs.operand_eq_error_iff.mp hoperand
        cases hother
        exact absurd hundefined hname

/-- One of two occurrences of a name is written out. -/
theorem count_of_name_and_literal :
    let s := (Host.empty.run
      [.addFunction "count" (.ok (Function.count ⟨[[.vector, .vector]]⟩)),
        .addVector "x" [3.0, 4.0]]).session
    s.vector? "x" = some [3.0, 4.0] ∧
      s.evaluateCall ⟨"count", [.identifier "x", .vector [3.0, 4.0]]⟩ =
        s.evaluateCall ⟨"count", [.identifier "x", .identifier "x"]⟩ := by
  intro s
  let count : Function Float := Function.count ⟨[[.vector, .vector]]⟩
  have hcount : (Host.empty.run [.addFunction "count" (.ok count)]).session =
      empty.pushFunction "count" count :=
    Host.session_run_addFunction (functionRefusal?_empty (by decide) rfl)
  have hfree : (Host.empty.run [.addFunction "count" (.ok count)]).session.nameRefusal? "x" =
      none := by
    rw [hcount]
    exact nameRefusal?_pushFunction_empty count (by decide) (by decide)
  have hvalues : s.vector? "x" = some [3.0, 4.0] :=
    (Host.lookups_run_addVector (Host.wellFormed_empty.run _) hfree [3.0, 4.0]).1 "x"
  have hargs : List.Forall₂ s.WrittenOut [.identifier "x", .identifier "x"]
      [.identifier "x", .vector [3.0, 4.0]] :=
    .cons (.kept _) (.cons (.vector hvalues) .nil)
  exact ⟨hvalues, (names_can_be_written_out _).1
    ⟨"count", [.identifier "x", .identifier "x"]⟩ _ hargs⟩

end PNorm.Session
