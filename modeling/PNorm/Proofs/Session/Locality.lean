import PNorm.Proofs.Session.Outcome

/-!
# What an evaluation reads

An evaluation looks up one function and the values of the identifiers it meets.
Two sessions that agree on these give a call the same outcome
(`AgreeOn.evaluateCall`), whatever else they hold.

The second half follows a session that only gains names.  A host that writes to
no cell changes a lookup in one way, from nothing to something, and only by an
action that binds the name (`grows_of_perform`, and `grows_run` for runs).  So an
outcome can change in two ways: a name without a function gets one, or the
leftmost identifier without a value gets one (`WellFormed.evaluate_run`).

Writing is left out on purpose.  A write changes the value of a name that an
evaluation may read, so that nothing can be said that does not name the cell;
what is true of writes is in `PNorm.Proofs.Session.Sharing`.  The condition
`¬ action.Writes` is on the action and not on its effect: a write that happens to
store the old value is excluded as well.

`Grows` is the relation between the two ends of a run that the induction
carries.  It speaks about lookups alone and not about tables: cells are made and
lent to further names all the time, and no lookup notices.
-/

namespace PNorm

namespace Session

variable {α : Type}

/-! ## Two sessions and one call -/

/-- `s` and `s'` agree on the name that a call applies and on the names among its arguments. -/
structure AgreeOn (s s' : Session α) (call : Call) : Prop where
  function : s'.function? call.name = s.function? call.name
  vector : ∀ name, .identifier name ∈ call.args → s'.vector? name = s.vector? name
  scalar : ∀ name, .identifier name ∈ call.args → s'.scalar? name = s.scalar? name

section Congruence

variable [FloatArith α] {s s' : Session α}

theorem operand_congr {arg : Argument}
    (hvector : ∀ name, arg = .identifier name → s'.vector? name = s.vector? name)
    (hscalar : ∀ name, arg = .identifier name → s'.scalar? name = s.scalar? name) :
    s'.operand arg = s.operand arg := by
  cases arg with
  | number x => rfl
  | vector xs => rfl
  | identifier name => rw [operand, operand, hvector name rfl, hscalar name rfl]

theorem operands_congr {args : List Argument}
    (hargs : ∀ arg ∈ args, s'.operand arg = s.operand arg) :
    s'.operands args = s.operands args := by
  induction args with
  | nil => rfl
  | cons arg args ih =>
      have hrest := ih fun other hother => hargs other (List.mem_cons_of_mem arg hother)
      rw [operands, operands, hargs arg List.mem_cons_self, hrest]

theorem evaluateCall_congr {call : Call}
    (hfunction : s'.function? call.name = s.function? call.name)
    (hargs : s'.operands call.args = s.operands call.args) :
    s'.evaluateCall call = s.evaluateCall call := by
  rw [evaluateCall, evaluateCall, hfunction, hargs]

theorem AgreeOn.evaluateCall {call : Call} (h : s.AgreeOn s' call) :
    s'.evaluateCall call = s.evaluateCall call := by
  refine evaluateCall_congr h.function (operands_congr ?_)
  intro arg harg
  refine operand_congr ?_ ?_
  · rintro name rfl
    exact h.vector name harg
  · rintro name rfl
    exact h.scalar name harg

end Congruence

end Session

/-! ## Gaining names -/

namespace Action

variable {α : Type}

/-- The actions that write to a cell which is there already. -/
inductive Writes : Action α → Prop
  | write (handle : String) (values : List α) : Writes (.write handle values)
  | push (handle : String) (value : α) : Writes (.push handle value)
  | setScalar (handle : String) (value : α) : Writes (.setScalar handle value)
  | writeBound (name : String) (values : List α) : Writes (.writeBound name values)

/-- The actions that bind a name to a function. -/
inductive BindsFunction : Action α → String → Prop
  | builtins (policy : ExponentPolicy) : BindsFunction (.addBuiltins policy) "norm"
  | function (name : String) (built : Except PatternError (Function α)) :
      BindsFunction (.addFunction name built) name

/-- The actions that bind a name to a vector or a scalar. -/
inductive BindsValue : Action α → String → Prop
  | vector (name : String) (values : List α) : BindsValue (.addVector name values) name
  | sharedVector (name handle : String) : BindsValue (.addSharedVector name handle) name
  | scalar (name : String) (value : α) : BindsValue (.addScalar name value) name

end Action

namespace Host

variable {α : Type} [FloatArith α]

/-- One of the actions of a run was accepted and binds in the way `Binds`. -/
def Accepts (h : Host α) (actions : List (Action α)) (Binds : Action α → Prop) : Prop :=
  ∃ before action after h', actions = before ++ action :: after ∧ Binds action ∧
    (h.run before).perform action = .ok h'

/-- From `h` to `h'` lookups were only gained, by `actions` that bind the name. -/
structure Grows (h : Host α) (actions : List (Action α)) (h' : Host α) : Prop where
  functions : ∀ name, h'.session.function? name = h.session.function? name ∨
    h.session.function? name = none ∧ h.Accepts actions (·.BindsFunction name)
  values : ∀ name,
    (h'.session.vector? name = h.session.vector? name ∧
      h'.session.scalar? name = h.session.scalar? name) ∨
    (h.session.vector? name = none ∧ h.session.scalar? name = none) ∧
      h.Accepts actions (·.BindsValue name)

/-! ### One action -/

theorem accepts_single {h h' : Host α} {action : Action α} {Binds : Action α → Prop}
    (hbinds : Binds action) (hperform : h.perform action = .ok h') : h.Accepts [action] Binds :=
  ⟨[], action, [], h', rfl, hbinds, hperform⟩

/-- The tables of a session grow by one function. -/
theorem grows_of_addBuilt {h h' : Host α} {action : Action α} {name : String}
    {built : Except PatternError (Function α)} (hh : h.WellFormed)
    (hbinds : action.BindsFunction name)
    (hperform : h.perform action = .ok h')
    (hadd : h.session.addBuilt name built = .ok h'.session) : h.Grows [action] h' := by
  obtain ⟨function, rfl, hname, hsession⟩ := Session.addBuilt_eq_ok_iff.mp hadd
  have hfresh := hh.session.lookups_of_fresh
    ((h.session.functionRefusal?_eq_none_iff name function).mp hname).1
  constructor
  · intro other
    by_cases hother : other = name
    · subst hother
      exact .inr ⟨hfresh.2.2, accepts_single hbinds hperform⟩
    · rw [hsession]
      exact .inl (hh.session.function?_pushFunction_of_ne hname hother)
  · intro other
    rw [hsession]
    exact .inl ⟨rfl, rfl⟩

theorem grows_of_perform {h h' : Host α} {action : Action α} (hh : h.WellFormed)
    (haction : ¬ action.Writes) (hperform : h.perform action = .ok h') : h.Grows [action] h' := by
  cases action with
  | addBuiltins policy =>
      -- A function is bound to a name that had none.
      obtain ⟨session, hsession, rfl⟩ := withSession_eq_ok_iff.mp hperform
      exact grows_of_addBuilt hh (.builtins policy) hperform hsession
  | addFunction name built =>
      obtain ⟨session, hsession, rfl⟩ := withSession_eq_ok_iff.mp hperform
      exact grows_of_addBuilt hh (.function name built) hperform hsession
  | addVector name values =>
      obtain ⟨⟨cell, session⟩, hsession, rfl⟩ := map_eq_ok_iff.mp hperform
      obtain ⟨hname, rfl, rfl⟩ := Session.addVector_eq_ok_iff.mp hsession
      have hfresh := hh.session.lookups_of_fresh hname
      -- The name was free and is read now; every other name finds what it found.
      refine ⟨fun _ => .inl rfl, fun other => ?_⟩
      by_cases hother : name = other
      · subst hother
        exact .inr ⟨⟨hfresh.1, hfresh.2.1⟩, accepts_single (.vector name values) hperform⟩
      · refine .inl ⟨?_, rfl⟩
        exact (hh.session.vector?_insert_create name other values).trans (if_neg hother)
  | addScalar name value =>
      obtain ⟨⟨cell, session⟩, hsession, rfl⟩ := map_eq_ok_iff.mp hperform
      obtain ⟨hname, rfl, rfl⟩ := Session.addScalar_eq_ok_iff.mp hsession
      have hfresh := hh.session.lookups_of_fresh hname
      refine ⟨fun _ => .inl rfl, fun other => ?_⟩
      by_cases hother : name = other
      · subst hother
        exact .inr ⟨⟨hfresh.1, hfresh.2.1⟩, accepts_single (.scalar name value) hperform⟩
      · refine .inl ⟨rfl, ?_⟩
        exact (hh.session.scalar?_insert_create name other value).trans (if_neg hother)
  | newShared handle values =>
      cases hperform
      -- A cell without a name.  The cells that names have are older, and keep their values.
      refine ⟨fun _ => .inl rfl, fun other => .inl ⟨?_, rfl⟩⟩
      show (h.session.vectors[other]?).bind (h.session.vectorStore.create values).read? = _
      cases hcell : h.session.vectors[other]? with
      | none => simp [Session.vector?, hcell]
      | some cell =>
          simp only [Session.vector?, hcell, Option.bind_some]
          exact Store.read?_create_of_created (hh.session.vectorCell other cell hcell) values
  | addSharedVector name handle =>
      -- No cell is made here: the name gets one that is there.
      rcases addSharedVector_eq_ok_iff.mp hperform with ⟨-, rfl⟩ | ⟨cell, -, hname, rfl⟩
      · exact ⟨fun _ => .inl rfl, fun _ => .inl ⟨rfl, rfl⟩⟩
      · have hfresh := hh.session.lookups_of_fresh hname
        refine ⟨fun _ => .inl rfl, fun other => ?_⟩
        by_cases hother : name = other
        · subst hother
          exact .inr ⟨⟨hfresh.1, hfresh.2.1⟩, accepts_single (.sharedVector name handle) hperform⟩
        · refine .inl ⟨?_, rfl⟩
          simp [Session.vector?, Std.HashMap.getElem?_insert, hother]
  -- What is left are the actions that write.
  | write handle values => exact absurd (.write handle values) haction
  | push handle value => exact absurd (.push handle value) haction
  | setScalar handle value => exact absurd (.setScalar handle value) haction
  | writeBound name values => exact absurd (.writeBound name values) haction

/-! ### Runs -/

theorem Accepts.cons {h : Host α} {action : Action α} {actions : List (Action α)}
    {Binds : Action α → Prop} (hrest : (h.run [action]).Accepts actions Binds) :
    h.Accepts (action :: actions) Binds := by
  obtain ⟨before, later, after, h', rfl, hbinds, hperform⟩ := hrest
  refine ⟨action :: before, later, after, h', rfl, hbinds, ?_⟩
  rwa [run_cons]

theorem Accepts.append_right {h : Host α} {actions more : List (Action α)}
    {Binds : Action α → Prop} (hfirst : h.Accepts actions Binds) :
    h.Accepts (actions ++ more) Binds := by
  obtain ⟨before, action, after, h', rfl, hbinds, hperform⟩ := hfirst
  exact ⟨before, action, after ++ more, h', by simp, hbinds, hperform⟩

theorem Grows.refl (h : Host α) (actions : List (Action α)) : h.Grows actions h :=
  ⟨fun _ => .inl rfl, fun _ => .inl ⟨rfl, rfl⟩⟩

/-- What an accepted or a refused action leaves, the rest of a run goes on from. -/
theorem Grows.cons {h h' : Host α} {action : Action α} {actions : List (Action α)}
    (hfirst : h.Grows [action] (h.run [action])) (hrest : (h.run [action]).Grows actions h') :
    h.Grows (action :: actions) h' := by
  constructor
  · intro name
    rcases hrest.functions name with hsame | ⟨hnone, hbinds⟩
    · rcases hfirst.functions name with hsame' | ⟨hnone, hbinds⟩
      · exact .inl (hsame.trans hsame')
      · exact .inr ⟨hnone, hbinds.append_right⟩
    · rcases hfirst.functions name with hsame' | ⟨hnone', _⟩
      · exact .inr ⟨hsame'.symm.trans hnone, hbinds.cons⟩
      · exact .inr ⟨hnone', hbinds.cons⟩
  · intro name
    rcases hrest.values name with hsame | ⟨hnone, hbinds⟩
    · rcases hfirst.values name with hsame' | ⟨hnone, hbinds⟩
      · exact .inl ⟨hsame.1.trans hsame'.1, hsame.2.trans hsame'.2⟩
      · exact .inr ⟨hnone, hbinds.append_right⟩
    · rcases hfirst.values name with hsame' | ⟨hnone', _⟩
      · exact .inr ⟨⟨hsame'.1.symm.trans hnone.1, hsame'.2.symm.trans hnone.2⟩, hbinds.cons⟩
      · exact .inr ⟨hnone', hbinds.cons⟩

/-- Without writes a run only gains lookups. -/
theorem grows_run {actions : List (Action α)} (hactions : ∀ action ∈ actions, ¬ action.Writes)
    {h : Host α} (hh : h.WellFormed) : h.Grows actions (h.run actions) := by
  induction actions generalizing h with
  | nil => exact .refl h []
  | cons action actions ih =>
      have hrest := ih (fun other hother => hactions other (by simp [hother]))
        (hh.run [action])
      refine .cons ?_ hrest
      cases hperform : h.perform action with
      | error error =>
          have hsame : h.run [action] = h := by rw [run_cons, hperform]; rfl
          rw [hsame]
          exact .refl h [action]
      | ok h' =>
          have hnext : h.run [action] = h' := by rw [run_cons, hperform]; rfl
          rw [hnext]
          exact grows_of_perform hh (hactions action (by simp)) hperform

/-! ## Outcomes that last -/

section Outcomes

variable {h h' : Host α} {actions : List (Action α)}

/-- An argument that had an operand keeps it; one that had none may have got one. -/
theorem Grows.operand (hgrows : h.Grows actions h') (arg : Argument) :
    h'.session.operand arg = h.session.operand arg ∨
      ∃ name, h.session.operand arg = .error (.undefinedVariable name) ∧
        h.Accepts actions (·.BindsValue name) := by
  cases arg with
  | number x => exact .inl rfl
  | vector xs => exact .inl rfl
  | identifier name =>
      rcases hgrows.values name with ⟨hvector, hscalar⟩ | ⟨⟨hvector, hscalar⟩, hbinds⟩
      · rw [Session.operand, Session.operand, hvector, hscalar]
        exact .inl rfl
      · rw [Session.operand, Session.operand, hvector, hscalar]
        exact .inr ⟨name, rfl, hbinds⟩

/-- A list of arguments has the operands or the error it had, up to the leftmost argument that had
none. -/
theorem Grows.operands (hgrows : h.Grows actions h') (args : List Argument) :
    h'.session.operands args = h.session.operands args ∨
      ∃ name, h.session.operands args = .error (.undefinedVariable name) ∧
        h.Accepts actions (·.BindsValue name) := by
  induction args with
  | nil => exact .inl rfl
  | cons arg args ih =>
      rw [Session.operands, Session.operands]
      rcases hgrows.operand arg with hsame | ⟨name, hnone, hbinds⟩
      · rw [hsame]
        cases h.session.operand arg with
        | error error => exact .inl rfl
        | ok first =>
            rcases ih with hrest | ⟨name, hnone, hbinds⟩
            · exact .inl (by rw [hrest])
            · exact .inr ⟨name, by rw [hnone], hbinds⟩
      · rw [hnone]
        exact .inr ⟨name, rfl, hbinds⟩

/-- An outcome is as it was, or a name has been bound that was missing. -/
theorem Grows.evaluate (hgrows : h.Grows actions h') (source : String) :
    h'.session.evaluate source = h.session.evaluate source ∨
      (∃ name, h.session.evaluate source = .error (.unknownFunction name) ∧
        h.Accepts actions (·.BindsFunction name)) ∨
      ∃ name, h.session.evaluate source = .error (.undefinedVariable name) ∧
        h.Accepts actions (·.BindsValue name) := by
  simp only [Session.evaluate]
  cases Call.parse source with
  | error refusal => exact .inl rfl
  | ok call =>
      rcases hgrows.functions call.name with hfunction | ⟨hnone, hbinds⟩
      · rcases hgrows.operands call.args with hoperands | ⟨name, herror, hbinds⟩
        · exact .inl (Session.evaluateCall_congr hfunction hoperands)
        · simp only [Session.evaluateCall, hfunction, herror]
          cases h.session.function? call.name with
          | none => exact .inl rfl
          | some function => exact .inr (.inr ⟨name, rfl, hbinds⟩)
      · refine .inr (.inl ⟨call.name, ?_, hbinds⟩)
        simp only [Session.evaluateCall, hnone]

end Outcomes

/-- What is said of the outcomes of a source text before and after `actions`. -/
structure OutcomesLast (h : Host α) (actions : List (Action α)) (source : String) : Prop where
  value : ∀ result, h.session.evaluate source = .ok result →
    (h.run actions).session.evaluate source = .ok result
  unreadable : ∀ refusal, h.session.evaluate source = .error (.unreadable refusal) →
    (h.run actions).session.evaluate source = .error (.unreadable refusal)
  noMatchingSignature : ∀ function got expected,
    h.session.evaluate source = .error (.noMatchingSignature function got expected) →
    (h.run actions).session.evaluate source = .error (.noMatchingSignature function got expected)
  unknownFunction : ∀ name, h.session.evaluate source = .error (.unknownFunction name) →
    (h.run actions).session.evaluate source ≠ .error (.unknownFunction name) →
    h.Accepts actions (·.BindsFunction name)
  undefinedVariable : ∀ name, h.session.evaluate source = .error (.undefinedVariable name) →
    (h.run actions).session.evaluate source ≠ .error (.undefinedVariable name) →
    h.Accepts actions (·.BindsValue name)

theorem Grows.outcomesLast {h : Host α} {actions : List (Action α)}
    (hgrows : h.Grows actions (h.run actions)) (source : String) :
    h.OutcomesLast actions source := by
  rcases hgrows.evaluate source with hsame | ⟨missing, herror, hbinds⟩ | ⟨missing, herror, hbinds⟩
  · -- The outcome is the same, and every kind of outcome lasts.
    refine ⟨?_, ?_, ?_, ?_, ?_⟩
    · intro result hresult
      exact hsame.trans hresult
    · intro refusal hrefusal
      exact hsame.trans hrefusal
    · intro function got expected hnone
      exact hsame.trans hnone
    · intro name hname hchanged
      exact absurd (hsame.trans hname) hchanged
    · intro name hname hchanged
      exact absurd (hsame.trans hname) hchanged
  · -- A function was missing, and a later action binds it.
    refine ⟨?_, ?_, ?_, ?_, ?_⟩ <;> rw [herror]
    · intro result hresult
      cases hresult
    · intro refusal hrefusal
      cases hrefusal
    · intro function got expected hnone
      cases hnone
    · intro name hname _
      cases hname
      exact hbinds
    · intro name hname
      cases hname
  · -- A value was missing, and a later action binds it.
    refine ⟨?_, ?_, ?_, ?_, ?_⟩ <;> rw [herror]
    · intro result hresult
      cases hresult
    · intro refusal hrefusal
      cases hrefusal
    · intro function got expected hnone
      cases hnone
    · intro name hname
      cases hname
    · intro name hname _
      cases hname
      exact hbinds

end Host

namespace Session

variable {α : Type} [FloatArith α]

/-- **An evaluation reads only what its call mentions**, in any two sessions that hosts have built.
So names that are added afterwards change no value, no refusal to read and no refusal of the
signature, and the two other refusals only by the name that they complain of. -/
theorem evaluation_reads_what_it_mentions (actions others : List (Action α)) :
    let h : Host α := Host.empty.run actions
    let h' : Host α := Host.empty.run others
    (∀ source call, Call.parse source = .ok call → h.session.AgreeOn h'.session call →
      h'.session.evaluate source = h.session.evaluate source) ∧
    ∀ more : List (Action α), (∀ action ∈ more, ¬ action.Writes) → ∀ source,
      h.OutcomesLast more source := by
  intro h h'
  refine ⟨?_, ?_⟩
  · intro source call hparse hagree
    simp only [evaluate, hparse]
    exact hagree.evaluateCall
  · intro more hmore source
    exact (Host.grows_run hmore (Host.wellFormed_empty.run actions)).outcomesLast source

/-- A missing scalar is found once it is there, and a vector of another name changes nothing. -/
theorem count_after_scalar :
    let counts : Action Float := .addFunction "count" (.ok (Function.count ⟨[[.scalar]]⟩))
    let h : Host Float := Host.empty.run [counts]
    (Host.empty.run [counts, .addVector "y" [1.0]]).session.evaluate "count(x)" =
        h.session.evaluate "count(x)" ∧
      h.session.evaluate "count(x)" = .error (.undefinedVariable "x") ∧
      (h.run [.addScalar "x" 2.0]).session.evaluate "count(x)" = .ok 1.0 ∧
      h.Accepts [.addScalar "x" 2.0] (·.BindsValue "x") := by
  intro counts h
  let count : Function Float := Function.count ⟨[[.scalar]]⟩
  have hh : h.WellFormed := Host.wellFormed_empty.run [counts]
  have hsession : h.session = empty.pushFunction "count" count :=
    Host.session_run_addFunction (functionRefusal?_empty (by decide) rfl)
  have hfree (name : String) (hname : isSymbolName name = true) (hne : "count" ≠ name) :
      h.session.nameRefusal? name = none := by
    rw [hsession]
    exact nameRefusal?_pushFunction_empty count hname hne
  have hparse : Call.parse "count(x)" = .ok ⟨"count", [.identifier "x"]⟩ := by
    have hsource : "count" ++ "(" ++ "x" ++ ")" = "count(x)" := by decide
    rw [← hsource]
    exact Call.parse_symbol (by decide) (by decide)
  have hfunction : h.session.function? "count" = some count := by
    rw [hsession, function?_pushFunction]
  have hx := hfree "x" (by decide) (by decide)
  have hy := hfree "y" (by decide) (by decide)
  -- Without the scalar the name stands for nothing, and with it for one operand.
  obtain ⟨hvector, hscalar, -⟩ := hh.session.lookups_of_fresh hx
  have hundefined : h.session.evaluate "count(x)" = .error (.undefinedVariable "x") := by
    simp only [evaluate, hparse, evaluateCall, hfunction, operands, operand, hvector, hscalar]
  have hdefined : (h.run [.addScalar "x" 2.0]).session.evaluate "count(x)" = .ok 1.0 := by
    obtain ⟨hscalars, hvectors, hfunctions⟩ := Host.lookups_run_addScalar hh hx 2.0
    simp only [evaluate, hparse, evaluateCall, operands, operand, hscalars, hvectors, hfunctions,
      hfunction, hvector]
    rfl
  have hagree : h.session.AgreeOn (h.run [.addVector "y" [1.0]]).session
      ⟨"count", [.identifier "x"]⟩ := by
    obtain ⟨hvectors, hscalars, hfunctions⟩ := Host.lookups_run_addVector hh hy [1.0]
    refine ⟨congrFun hfunctions "count", ?_, fun _ _ => congrFun hscalars _⟩
    rintro name hname
    obtain rfl : name = "x" := by simpa using hname
    exact hvectors "x"
  obtain ⟨hreads, hlasts⟩ := evaluation_reads_what_it_mentions [counts]
    [counts, .addVector "y" [(1.0 : Float)]]
  have hlast := hlasts [.addScalar "x" 2.0] (by rintro action (_ | ⟨_, ⟨⟩⟩) ⟨⟩) "count(x)"
  refine ⟨hreads _ _ hparse hagree, hundefined, hdefined, hlast.undefinedVariable _ hundefined ?_⟩
  rw [hdefined]
  simp

end Session

end PNorm
