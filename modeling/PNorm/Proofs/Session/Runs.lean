import PNorm.Proofs.Session.Invariant
import PNorm.Session.Host

/-!
# Runs of a host

A run is a list of actions, and those that are refused leave no trace.
`change_of_perform` shows that each of the others is one `Session.Change`, so that
the invariant and the bindings of `PNorm.Proofs.Session.Invariant` last for whole
runs (`WellFormed.run`, `extends_run`).

The main statement, `namespace_of_run`, is about the runs that start with nothing:
the names of the vectors, of the scalars and of the functions form one namespace,
and a name that has entered it keeps its meaning.

Every later statement about runs is an instance of `run_induction`: what each
accepted action keeps, a run keeps.  It is stated for an arbitrary property of
hosts, because most properties that are carried along need the invariant of the
host beside them; `extends_run` shows the pattern.

Handles are part of the host and not of the session.  The invariant has to speak
of them nevertheless: a handle can be given to a name later, and what it refers
to has to be a cell by then.
-/

namespace PNorm

namespace Host

variable {α : Type}

/-- The session is well formed, and the host holds no handle to a cell that was not created. -/
structure WellFormed (h : Host α) : Prop where
  session : h.session.WellFormed
  vectorHandle : ∀ (handle : String) cell, h.vectorHandles[handle]? = some cell →
    h.session.vectorStore.Created cell

theorem wellFormed_empty : (empty : Host α).WellFormed where
  session := Session.wellFormed_empty
  vectorHandle := by
    intro handle cell hcell
    simp [empty] at hcell

theorem map_eq_ok_iff {β γ : Type} {f : β → γ} {result : Except SessionError β} {value : γ} :
    result.map f = .ok value ↔ ∃ x, result = .ok x ∧ f x = value := by
  cases result <;> simp [Except.map]

theorem withSession_eq_ok_iff {h h' : Host α} {result : Except SessionError (Session α)} :
    h.withSession result = .ok h' ↔
      ∃ session, result = .ok session ∧ h' = { h with session } := by
  rw [withSession, map_eq_ok_iff]
  constructor
  · intro h
    obtain ⟨session, hsession, rfl⟩ := h
    exact ⟨session, hsession, rfl⟩
  · intro h
    obtain ⟨session, hsession, rfl⟩ := h
    exact ⟨session, hsession, rfl⟩

/-- A handle that the host does not have binds nothing; any other lends its cell to the name. -/
theorem addSharedVector_eq_ok_iff [FloatArith α] {h h' : Host α} {name handle : String} :
    h.perform (.addSharedVector name handle) = .ok h' ↔
      (h.vectorHandles[handle]? = none ∧ h' = h) ∨
        ∃ cell, h.vectorHandles[handle]? = some cell ∧ h.session.nameRefusal? name = none ∧
          h' = { h with
            session := { h.session with vectors := h.session.vectors.insert name cell } } := by
  rw [perform]
  cases h.vectorHandles[handle]? with
  | none => simp [eq_comm]
  | some cell =>
      simp only [withSession_eq_ok_iff, Session.addSharedVector_eq_ok_iff]
      constructor
      · intro h
        obtain ⟨session, ⟨hname, rfl⟩, rfl⟩ := h
        exact .inr ⟨cell, rfl, hname, rfl⟩
      · rintro (⟨hnone, -⟩ | ⟨_, hcell, hname, rfl⟩)
        · cases hnone
        · cases hcell
          exact ⟨_, ⟨hname, rfl⟩, rfl⟩

theorem change_writeCell (h : Host α) (cell? : Option (Cell (List α))) (values : List α) :
    h.session.Change (h.writeCell cell? values).session := by
  cases cell? with
  | none => exact .stores _ _ (.refl _) (.refl _)
  | some cell => exact .stores _ _ (Store.keeps_write _ _ _) (.refl _)

theorem change_writeScalarCell (h : Host α) (cell? : Option (Cell α)) (value : α) :
    h.session.Change (h.writeScalarCell cell? value).session := by
  cases cell? with
  | none => exact .stores _ _ (.refl _) (.refl _)
  | some cell => exact .stores _ _ (.refl _) (Store.keeps_write _ _ _)

theorem vectorHandles_writeCell (h : Host α) (cell? : Option (Cell (List α))) (values : List α) :
    (h.writeCell cell? values).vectorHandles = h.vectorHandles := by
  cases cell? <;> rfl

theorem vectorHandles_writeScalarCell (h : Host α) (cell? : Option (Cell α)) (value : α) :
    (h.writeScalarCell cell? value).vectorHandles = h.vectorHandles := by
  cases cell? <;> rfl

variable [FloatArith α]

/-- An action that is not refused makes one change to the session, and the handles of the host are
the old ones, or the old ones and one to a cell that is there now. -/
theorem change_of_perform {h h' : Host α} {action : Action α} (hh : h.WellFormed)
    (hperform : h.perform action = .ok h') :
    h.session.Change h'.session ∧
      ∀ (handle : String) cell, h'.vectorHandles[handle]? = some cell →
        h.vectorHandles[handle]? = some cell ∨ h'.session.vectorStore.Created cell := by
  -- A handle comes from `addVector` or `newShared`, each time for the cell that is made with it.
  -- Every other action leaves the handles alone.
  cases action with
  | addBuiltins policy =>
      obtain ⟨session, hsession, rfl⟩ := withSession_eq_ok_iff.mp hperform
      exact ⟨Session.change_of_addBuilt hsession, fun _ _ hcell => .inl hcell⟩
  | addVector name values =>
      obtain ⟨⟨cell, session⟩, hsession, rfl⟩ := map_eq_ok_iff.mp hperform
      obtain ⟨hname, rfl, rfl⟩ := Session.addVector_eq_ok_iff.mp hsession
      refine ⟨.vector _ _ _ hname (Store.keeps_create _ _) (Store.created_next _ _), ?_⟩
      intro handle cell hcell
      rw [Std.HashMap.getElem?_insert] at hcell
      split at hcell
      · cases hcell
        exact .inr (Store.created_next _ _)
      · exact .inl hcell
  | addScalar name value =>
      obtain ⟨⟨cell, session⟩, hsession, rfl⟩ := map_eq_ok_iff.mp hperform
      obtain ⟨hname, rfl, rfl⟩ := Session.addScalar_eq_ok_iff.mp hsession
      exact ⟨.scalar _ _ _ hname (Store.keeps_create _ _) (Store.created_next _ _),
        fun _ _ hcell => .inl hcell⟩
  | newShared handle values =>
      cases hperform
      refine ⟨.stores _ _ (Store.keeps_create _ _) (.refl _), ?_⟩
      intro other cell hcell
      rw [Std.HashMap.getElem?_insert] at hcell
      split at hcell
      · cases hcell
        exact .inr (Store.created_next _ _)
      · exact .inl hcell
  | addSharedVector name handle =>
      -- The cell of a handle is there, so that the name gets one that the store has.
      rcases addSharedVector_eq_ok_iff.mp hperform with ⟨-, rfl⟩ | ⟨cell, hhandle, hname, rfl⟩
      · exact ⟨.stores _ _ (.refl _) (.refl _), fun _ _ hcell => .inl hcell⟩
      · exact ⟨.vector _ _ _ hname (.refl _) (hh.vectorHandle handle cell hhandle),
          fun _ _ hcell => .inl hcell⟩
  | addFunction name built =>
      obtain ⟨session, hsession, rfl⟩ := withSession_eq_ok_iff.mp hperform
      exact ⟨Session.change_of_addBuilt hsession, fun _ _ hcell => .inl hcell⟩
  | write handle values =>
      cases hperform
      -- A write moves no cell and no handle.
      refine ⟨change_writeCell _ _ _, ?_⟩
      rw [vectorHandles_writeCell]
      exact fun _ _ hcell => .inl hcell
  | push handle value =>
      cases hperform
      refine ⟨change_writeCell _ _ _, ?_⟩
      rw [vectorHandles_writeCell]
      exact fun _ _ hcell => .inl hcell
  | setScalar handle value =>
      cases hperform
      refine ⟨change_writeScalarCell _ _ _, ?_⟩
      rw [vectorHandles_writeScalarCell]
      exact fun _ _ hcell => .inl hcell
  | writeBound name values =>
      cases hperform
      refine ⟨change_writeCell _ _ _, ?_⟩
      rw [vectorHandles_writeCell]
      exact fun _ _ hcell => .inl hcell

theorem WellFormed.of_perform {h h' : Host α} {action : Action α} (hh : h.WellFormed)
    (hperform : h.perform action = .ok h') : h'.WellFormed := by
  obtain ⟨hchange, hhandles⟩ := change_of_perform hh hperform
  refine ⟨hh.session.of_change hchange, ?_⟩
  intro handle cell hcell
  rcases hhandles handle cell hcell with hold | hcreated
  · exact hchange.vectorStore_keeps cell (hh.vectorHandle handle cell hold)
  · exact hcreated

/-! ### Runs -/

theorem run_cons (h : Host α) (action : Action α) (actions : List (Action α)) :
    h.run (action :: actions) = (((h.perform action).toOption).getD h).run actions := rfl

theorem run_append (h : Host α) (actions more : List (Action α)) :
    h.run (actions ++ more) = (h.run actions).run more :=
  List.foldl_append

/-- What every accepted action keeps, every run keeps. -/
theorem run_induction {motive : Host α → Prop}
    (hstep : ∀ h action h', motive h → h.perform action = .ok h' → motive h') :
    ∀ (actions : List (Action α)) (h : Host α), motive h → motive (h.run actions) := by
  intro actions
  induction actions with
  | nil => intro h hstart; exact hstart
  | cons action rest ih =>
      intro h hstart
      rw [run_cons]
      cases hperform : h.perform action with
      | error error => exact ih h hstart
      | ok h' => exact ih h' (hstep h action h' hstart hperform)

theorem WellFormed.run {h : Host α} (hh : h.WellFormed) (actions : List (Action α)) :
    (h.run actions).WellFormed :=
  run_induction (fun _ _ _ hstart hperform => hstart.of_perform hperform) actions h hh

/-- No run gives up a binding. -/
theorem extends_run {h : Host α} (hh : h.WellFormed) (actions : List (Action α)) :
    h.session.Extends (h.run actions).session := by
  have hboth : (h.run actions).WellFormed ∧ h.session.Extends (h.run actions).session := by
    refine run_induction (motive := fun h' => h'.WellFormed ∧ h.session.Extends h'.session)
      ?_ actions h ⟨hh, .refl _⟩
    rintro h₁ action h₂ ⟨hwell, hextends⟩ hperform
    exact ⟨hwell.of_perform hperform,
      hextends.trans (.of_change (change_of_perform hwell hperform).1)⟩
  exact hboth.2

/-! ### Many functions -/

/-- The action that adds the function under the name with the number `number`. -/
def addition (stem : String) (function : Function α) (number : Nat) : Action α :=
  .addFunction (stem ++ toString number) (.ok function)

theorem perform_addition (h : Host α) (stem : String) (function : Function α) (number : Nat) :
    h.perform (addition stem function number) =
      match h.session.functionRefusal? (stem ++ toString number) function with
      | some error => .error error
      | none =>
          .ok { h with session := h.session.pushFunction (stem ++ toString number) function } := by
  simp only [addition, perform, withSession, Session.addBuilt, Session.addFunction]
  cases h.session.functionRefusal? (stem ++ toString number) function with
  | none => rfl
  | some error => rfl

/-- Adding many functions is adding one after the other.  All those in front of the stop are
accepted, and it stops before the end only at one that is refused. -/
theorem addNumbered_spec (stem : String) (function : Function α) {count : Nat} :
    ∀ {h : Host α} {first stop : Nat} {refusal? : Option SessionError} {session : Session α},
      addNumbered h.session stem function first count = (stop, refusal?, session) →
      ∃ added ≤ count, stop = first + added ∧
        ((List.range' first added).map (addition stem function)).foldlM perform h =
          .ok { h with session } ∧
        match refusal? with
        | none => added = count
        | some error =>
            perform { h with session } (addition stem function stop) = .error error := by
  induction count with
  | zero =>
      rintro h first stop refusal? session ⟨⟩
      exact ⟨0, Nat.le_refl 0, rfl, rfl, rfl⟩
  | succ count ih =>
      intro h first stop refusal? session hadd
      rw [addNumbered] at hadd
      cases hrefusal : h.session.functionRefusal? (stem ++ toString first) function with
      | some error =>
          -- The first one is refused, and nothing is added.
          simp only [hrefusal] at hadd
          cases hadd
          refine ⟨0, Nat.zero_le _, rfl, rfl, ?_⟩
          simp only [perform_addition, hrefusal]
      | none =>
          -- The first one is accepted, and the others are added to the session with it.
          simp only [hrefusal] at hadd
          obtain ⟨added, hle, rfl, hrun, hstop⟩ := ih (h := { h with session := _ }) hadd
          refine ⟨added + 1, Nat.succ_le_succ hle, by omega, ?_, ?_⟩
          · rw [List.range'_succ, List.map_cons, List.foldlM_cons, perform_addition, hrefusal]
            exact hrun
          · cases refusal? with
            | none => exact congrArg (· + 1) hstop
            | some error => exact hstop

/-! ### Lookups after one more vector or scalar -/

section Lookups

variable {h : Host α} {name : String}

theorem lookups_run_addVector (hh : h.WellFormed) (hname : h.session.nameRefusal? name = none)
    (values : List α) :
    let s := (h.run [.addVector name values]).session
    (∀ other, s.vector? other = if name = other then some values else h.session.vector? other) ∧
      s.scalar? = h.session.scalar? ∧ s.function? = h.session.function? := by
  intro s
  have hs := session_run_addVector hname values
  change s = _ at hs
  refine ⟨fun other => ?_, ?_, ?_⟩
  · rw [hs]
    exact hh.session.vector?_insert_create name other values
  · rw [hs]
    rfl
  · rw [hs]
    rfl

theorem lookups_run_addScalar (hh : h.WellFormed) (hname : h.session.nameRefusal? name = none)
    (value : α) :
    let s := (h.run [.addScalar name value]).session
    (∀ other, s.scalar? other = if name = other then some value else h.session.scalar? other) ∧
      s.vector? = h.session.vector? ∧ s.function? = h.session.function? := by
  intro s
  have hs := session_run_addScalar hname value
  change s = _ at hs
  refine ⟨fun other => ?_, ?_, ?_⟩
  · rw [hs]
    exact hh.session.scalar?_insert_create name other value
  · rw [hs]
    rfl
  · rw [hs]
    rfl

end Lookups

/-! ### The namespace of a run -/

/-- **Vectors, scalars and functions share one namespace, and a binding is for good.**  Whatever was
tried on a session that started empty, each name has at most one role and is a symbol name, it is
bound exactly if one of the three lookups finds it, and every function accepts something.  Whatever
is tried afterwards, every binding stays, with its cell or its function. -/
theorem namespace_of_run (actions more : List (Action α)) :
    let s := (empty.run actions).session
    let later := (empty.run (actions ++ more)).session
    (∀ name, (s.roles name).count true ≤ 1) ∧
      (∀ name, s.bound name = true → isSymbolName name = true) ∧
      (∀ name, s.bound name = true ↔
        [(s.vector? name).isSome, (s.scalar? name).isSome, (s.function? name).isSome].count true
          = 1) ∧
      (∀ entry ∈ s.functions.toList, entry.function.signature.alternatives ≠ []) ∧
      s.Extends later := by
  intro s later
  have hwell : (empty.run actions).WellFormed := wellFormed_empty.run actions
  refine ⟨hwell.session.oneRole, hwell.session.symbolName, hwell.session.bound_iff_count, ?_, ?_⟩
  · intro entry hentry
    exact hwell.session.accepts hentry
  · have hextends := extends_run hwell more
    rwa [← run_append] at hextends

end Host

end PNorm
