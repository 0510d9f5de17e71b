import PNorm.Proofs.Session.Runs
import PNorm.Session.Edit

/-!
# A definition is made or refused

A name is bound by a call that checks in three layers: the pattern of a function
is read, the name is checked, and the registry does its own checks.  Between the
checks cells are made and tables are written.  This file shows that nothing of
this can be seen from outside.

* `Objection` lists what can be said against a definition, and `precedence`
  orders it.  Several objections may apply at once; the definition is refused
  with the first of them (`WellFormed.define_eq_error_iff`).
* Without an objection the definition is made, and `Gains` says what that
  changes: one name, and for a new value the cell behind it.
* `run_edit` carries both over to the edit that works in place.  Where it is
  refused it may have made a cell, but no name is bound to that cell and no
  table has changed (`SameBindings`).
-/

namespace PNorm

/-- Why a registry refuses a function under a new name. -/
theorem Registry.refusal?_eq_some_iff {α : Type} {r : Registry α} {name : String}
    {function : Function α} (hnew : r.contains name = false) {error : SessionError} :
    r.refusal? name function = some error ↔
      function.signature.alternatives = [] ∧ error = .emptySignature name ∨
        function.signature.alternatives ≠ [] ∧ maxFunctions ≤ r.toList.length ∧
          error = .registryFull := by
  have hempty : function.signature.isEmpty = true ↔ function.signature.alternatives = [] :=
    List.isEmpty_iff
  have hsize : r.size = r.toList.length := Array.length_toList.symm
  unfold refusal?
  rw [hnew, if_neg Bool.false_ne_true, hsize]
  by_cases hsignature : function.signature.isEmpty = true
  · rw [if_pos hsignature]
    simp [hempty.mp hsignature, eq_comm]
  · rw [if_neg hsignature]
    simp [mt hempty.mpr hsignature, eq_comm]

namespace Session

variable {α : Type}

/-! ## Objections -/

/-- A name has a role already. -/
def Taken (s : Session α) (name : String) : Prop :=
  (∃ cell, s.vectors[name]? = some cell) ∨ (∃ cell, s.scalars[name]? = some cell) ∨
    ∃ function, ⟨name, function⟩ ∈ s.functions.toList

/-- What can be said against a definition. -/
inductive Objection [FloatArith α] (s : Session α) (d : Definition α) : SessionError → Prop
  | badPattern {defect : PatternError} (hbuilt : d.built? = some (.error defect)) :
      Objection s d (.badPattern defect)
  | invalidName (hname : isSymbolName d.name = false) : Objection s d (.invalidName d.name)
  | duplicateName (hname : s.Taken d.name) : Objection s d (.duplicateName d.name)
  | emptySignature {function : Function α} (hbuilt : d.built? = some (.ok function))
      (hempty : function.signature.alternatives = []) : Objection s d (.emptySignature d.name)
  | registryFull {function : Function α} (hbuilt : d.built? = some (.ok function))
      (hfull : maxFunctions ≤ s.functions.toList.length) : Objection s d .registryFull

/-- The order in which objections are raised.  The errors of an evaluation are none. -/
def precedence : SessionError → Nat
  | .badPattern _ => 0
  | .invalidName _ => 1
  | .duplicateName _ => 2
  | .emptySignature _ => 3
  | .registryFull => 4
  | _ => 5

/-- The objection that comes before all others. -/
def FirstObjection [FloatArith α] (s : Session α) (d : Definition α) (error : SessionError) :
    Prop :=
  s.Objection d error ∧ ∀ other, s.Objection d other → precedence error ≤ precedence other

/-! ## What a definition adds -/

/-- `names'` is `names` with one name more. -/
def GainsName {β : Type} (names names' : Std.HashMap String β) (name : String) (value : β) :
    Prop :=
  ∀ other, names'[other]? = if name = other then some value else names[other]?

/-- `store'` is `store` with one cell more. -/
def GainsCell {β : Type} (store store' : Store β) (cell : Cell β) (value : β) : Prop :=
  ¬ store.Created cell ∧
    ∀ other, store'.read? other = if other = cell then some value else store.read? other

/-- `functions'` is `functions` with one entry more, which comes last. -/
def GainsEntry (functions functions' : Registry α) (name : String) (function : Function α) :
    Prop :=
  functions'.toList = functions.toList ++ [⟨name, function⟩] ∧
    ∀ other, functions'.idOf? other =
      if name = other then some functions.toList.length else functions.idOf? other

/-- The session after a definition: what is not named is as it was. -/
inductive Gains [FloatArith α] (s : Session α) : Definition α → Session α → Prop
  | vector {name : String} {values : List α} {cell : Cell (List α)} {vectors vectorStore}
      (hname : GainsName s.vectors vectors name cell)
      (hcell : GainsCell s.vectorStore vectorStore cell values) :
      Gains s (.vector name values) { s with vectors, vectorStore }
  | sharedVector {name : String} {cell : Cell (List α)} {vectors}
      (hname : GainsName s.vectors vectors name cell) :
      Gains s (.sharedVector name cell) { s with vectors }
  | scalar {name : String} {value : α} {cell : Cell α} {scalars scalarStore}
      (hname : GainsName s.scalars scalars name cell)
      (hcell : GainsCell s.scalarStore scalarStore cell value) :
      Gains s (.scalar name value) { s with scalars, scalarStore }
  | function {d : Definition α} {function : Function α} {functions}
      (hbuilt : d.built? = some (.ok function))
      (hentry : GainsEntry s.functions functions d.name function) :
      Gains s d { s with functions }

/-- `s'` may have more cells than `s`, and is the same otherwise. -/
structure SameBindings (s s' : Session α) : Prop where
  vectors : s'.vectors = s.vectors
  scalars : s'.scalars = s.scalars
  functions : s'.functions = s.functions
  vectorCells : ∀ cell, s.vectorStore.Created cell →
    s'.vectorStore.read? cell = s.vectorStore.read? cell
  scalarCells : ∀ cell, s.scalarStore.Created cell →
    s'.scalarStore.read? cell = s.scalarStore.read? cell

/-! ## The first objection refuses -/

theorem nameRefusal?_eq_some_iff {s : Session α} {name : String} {error : SessionError} :
    s.nameRefusal? name = some error ↔
      isSymbolName name = false ∧ error = .invalidName name ∨
        isSymbolName name = true ∧ s.bound name = true ∧ error = .duplicateName name := by
  unfold nameRefusal?
  cases isSymbolName name <;> cases s.bound name <;> simp [eq_comm]

/-- The objection that a definition meets, if there is one. -/
def refusal? [FloatArith α] (s : Session α) (d : Definition α) : Option SessionError :=
  match d.built? with
  | none => s.nameRefusal? d.name
  | some (.error defect) => some (.badPattern defect)
  | some (.ok function) => s.functionRefusal? d.name function

theorem WellFormed.taken_iff {s : Session α} (hs : s.WellFormed) {name : String} :
    s.Taken name ↔ s.bound name = true := by
  simp only [Taken, ← hs.function?_eq_some_iff, ← Option.isSome_iff_exists, hs.isSome_function?,
    ← Std.HashMap.contains_eq_isSome_getElem?, bound, Bool.or_eq_true, or_assoc]

section Refusal

variable [FloatArith α] {s : Session α} {d : Definition α}

/-- Objections of one rank are one objection. -/
theorem Objection.unique {error other : SessionError} (herror : s.Objection d error)
    (hother : s.Objection d other) (hrank : precedence error = precedence other) :
    error = other := by
  cases herror <;> cases hother <;> simp_all [precedence]

theorem FirstObjection.unique {error other : SessionError} (herror : s.FirstObjection d error)
    (hother : s.FirstObjection d other) : error = other :=
  herror.1.unique hother.1 (Nat.le_antisymm (herror.2 _ hother.1) (hother.2 _ herror.1))

theorem firstObjection_of_nameRefusal? (hs : s.WellFormed) {error : SessionError}
    (hbuilt : ∀ defect, d.built? ≠ some (.error defect))
    (hrefusal : s.nameRefusal? d.name = some error) : s.FirstObjection d error := by
  rcases nameRefusal?_eq_some_iff.mp hrefusal with ⟨hname, rfl⟩ | ⟨hname, hbound, rfl⟩
  · refine ⟨.invalidName hname, ?_⟩
    intro other hother
    cases hother with
    | badPattern hdefect => exact absurd hdefect (hbuilt _)
    | invalidName | duplicateName | emptySignature | registryFull => simp [precedence]
  · refine ⟨.duplicateName (hs.taken_iff.mpr hbound), ?_⟩
    intro other hother
    cases hother with
    | badPattern hdefect => exact absurd hdefect (hbuilt _)
    | invalidName hinvalid =>
        rw [hname] at hinvalid
        cases hinvalid
    | duplicateName | emptySignature | registryFull => simp [precedence]

private theorem firstObjection_of_registryRefusal? (hs : s.WellFormed) {function : Function α}
    {error : SessionError} (hbuilt : d.built? = some (.ok function))
    (hname : s.nameRefusal? d.name = none)
    (hrefusal : s.functions.refusal? d.name function = some error) :
    s.FirstObjection d error := by
  obtain ⟨hsymbol, hfree⟩ := (s.nameRefusal?_eq_none_iff d.name).mp hname
  -- Pattern and name are in order, so that what is left ranks third or later.
  have hnone : ∀ other, s.Objection d other → 3 ≤ precedence other := by
    intro other hother
    cases hother with
    | badPattern hdefect =>
        rw [hbuilt] at hdefect
        cases hdefect
    | invalidName hinvalid =>
        rw [hsymbol] at hinvalid
        cases hinvalid
    | duplicateName htaken =>
        rw [hs.taken_iff, hfree] at htaken
        cases htaken
    | emptySignature | registryFull => simp [precedence]
  have hnew : s.functions.contains d.name = false := by
    simp only [bound, Bool.or_eq_false_iff] at hfree
    exact hfree.2
  rcases (Registry.refusal?_eq_some_iff hnew).mp hrefusal with
    ⟨hempty, rfl⟩ | ⟨haccepts, hfull, rfl⟩
  · exact ⟨.emptySignature hbuilt hempty, hnone⟩
  · -- The function accepts something, so that only the size of the registry is left.
    refine ⟨.registryFull hbuilt hfull, ?_⟩
    intro other hother
    have hrank := hnone other hother
    cases hother with
    | emptySignature hbuilt' hempty =>
        rw [hbuilt] at hbuilt'
        cases hbuilt'
        exact absurd hempty haccepts
    | registryFull => exact Nat.le_refl _
    | badPattern | invalidName | duplicateName => simp [precedence] at hrank

/-- What a definition is refused with is the first objection to it. -/
theorem firstObjection_of_refusal? (hs : s.WellFormed) {error : SessionError}
    (hrefusal : s.refusal? d = some error) : s.FirstObjection d error := by
  unfold refusal? at hrefusal
  rcases hbuilt : d.built? with _ | defect | function
  · rw [hbuilt] at hrefusal
    exact firstObjection_of_nameRefusal? hs (by simp [hbuilt]) hrefusal
  · rw [hbuilt] at hrefusal
    cases hrefusal
    exact ⟨.badPattern hbuilt, fun _ _ => Nat.zero_le _⟩
  · rw [hbuilt] at hrefusal
    rcases Option.or_eq_some_iff.mp hrefusal with hname | ⟨hname, hregistry⟩
    · exact firstObjection_of_nameRefusal? hs (by simp [hbuilt]) hname
    · exact firstObjection_of_registryRefusal? hs hbuilt hname hregistry

/-- What is not refused has nothing against it. -/
theorem not_objection_of_refusal? (hs : s.WellFormed) (hrefusal : s.refusal? d = none)
    (error : SessionError) : ¬ s.Objection d error := by
  have hname : s.nameRefusal? d.name = none := by
    unfold refusal? at hrefusal
    split at hrefusal
    · exact hrefusal
    · cases hrefusal
    · exact ((s.functionRefusal?_eq_none_iff _ _).mp hrefusal).1
  obtain ⟨hsymbol, hfree⟩ := (s.nameRefusal?_eq_none_iff d.name).mp hname
  have hregistry : ∀ function, d.built? = some (.ok function) →
      function.signature.isEmpty = false ∧ s.functions.size < maxFunctions := by
    intro function hbuilt
    rw [refusal?, hbuilt] at hrefusal
    obtain ⟨_, h⟩ := (s.functionRefusal?_eq_none_iff _ _).mp hrefusal
    exact ((s.functions.refusal?_eq_none_iff _ _).mp h).2
  intro hobjection
  cases hobjection with
  | badPattern hbuilt =>
      rw [refusal?, hbuilt] at hrefusal
      cases hrefusal
  | invalidName hinvalid =>
      rw [hsymbol] at hinvalid
      cases hinvalid
  | duplicateName htaken =>
      rw [hs.taken_iff, hfree] at htaken
      cases htaken
  | emptySignature hbuilt hempty =>
      have haccepts := (hregistry _ hbuilt).1
      rw [Signature.isEmpty, hempty] at haccepts
      cases haccepts
  | registryFull hbuilt hfull => exact absurd (hregistry _ hbuilt).2 (Nat.not_lt.mpr hfull)

theorem refusal?_eq_some_iff (hs : s.WellFormed) {error : SessionError} :
    s.refusal? d = some error ↔ s.FirstObjection d error := by
  constructor
  · exact firstObjection_of_refusal? hs
  · intro hfirst
    cases hrefusal : s.refusal? d with
    | none => exact absurd hfirst.1 (not_objection_of_refusal? hs hrefusal error)
    | some other => rw [(firstObjection_of_refusal? hs hrefusal).unique hfirst]

theorem addBuilt_eq_error_iff {built : Except PatternError (Function α)}
    (hbuilt : d.built? = some built) {error : SessionError} :
    s.addBuilt d.name built = .error error ↔ s.refusal? d = some error := by
  rw [refusal?, hbuilt]
  cases built with
  | error defect => simp [addBuilt]
  | ok function =>
      show s.addFunction d.name function = _ ↔ s.functionRefusal? d.name function = _
      unfold addFunction
      cases s.functionRefusal? d.name function <;> simp

theorem define_eq_error_iff {error : SessionError} :
    s.define d = .error error ↔ s.refusal? d = some error := by
  cases d with
  | vector name values =>
      show (s.addVector name values).map _ = _ ↔ s.nameRefusal? name = _
      unfold addVector
      cases s.nameRefusal? name <;> simp [Except.map]
  | sharedVector name cell =>
      show s.addSharedVector name cell = _ ↔ s.nameRefusal? name = _
      unfold addSharedVector
      cases s.nameRefusal? name <;> simp
  | scalar name value =>
      show (s.addScalar name value).map _ = _ ↔ s.nameRefusal? name = _
      unfold addScalar
      cases s.nameRefusal? name <;> simp [Except.map]
  | function name built => exact addBuilt_eq_error_iff (d := .function name built) rfl
  | builtins policy =>
      rw [define, addBuiltins]
      exact addBuilt_eq_error_iff (d := .builtins policy) rfl

end Refusal

/-! ## What is not refused is made -/

theorem gainsName_insert {β : Type} (names : Std.HashMap String β) (name : String) (value : β) :
    GainsName names (names.insert name value) name value := by
  intro other
  simp [Std.HashMap.getElem?_insert]

theorem gainsCell_create {β : Type} (store : Store β) (value : β) :
    GainsCell store (store.create value) store.next value := by
  refine ⟨?_, fun other => store.read?_create value other⟩
  simp [Store.Created, Store.read?, Store.next]

theorem gainsEntry_push (functions : Registry α) (name : String) (function : Function α) :
    GainsEntry functions (functions.push name function) name function := by
  refine ⟨Array.toList_push, ?_⟩
  intro other
  rw [Registry.idOf?_push, Registry.toList, Array.length_toList, Registry.size]

section Definition

variable [FloatArith α] {s s' : Session α} {d : Definition α}

theorem gains_of_addBuilt {built : Except PatternError (Function α)}
    (hbuilt : d.built? = some built) (hadd : s.addBuilt d.name built = .ok s') : s.Gains d s' := by
  obtain ⟨function, rfl, _, rfl⟩ := addBuilt_eq_ok_iff.mp hadd
  exact .function hbuilt (gainsEntry_push _ _ _)

theorem gains_of_define (hdefine : s.define d = .ok s') : s.Gains d s' := by
  cases d with
  | vector name values =>
      obtain ⟨⟨cell, s'⟩, hadd, rfl⟩ := Host.map_eq_ok_iff.mp hdefine
      obtain ⟨_, rfl, rfl⟩ := addVector_eq_ok_iff.mp hadd
      exact .vector (gainsName_insert _ _ _) (gainsCell_create _ _)
  | sharedVector name cell =>
      obtain ⟨_, rfl⟩ := addSharedVector_eq_ok_iff.mp hdefine
      exact .sharedVector (gainsName_insert _ _ _)
  | scalar name value =>
      obtain ⟨⟨cell, s'⟩, hadd, rfl⟩ := Host.map_eq_ok_iff.mp hdefine
      obtain ⟨_, rfl, rfl⟩ := addScalar_eq_ok_iff.mp hadd
      exact .scalar (gainsName_insert _ _ _) (gainsCell_create _ _)
  | function name built => exact gains_of_addBuilt (d := .function name built) rfl hdefine
  | builtins policy =>
      rw [define, addBuiltins] at hdefine
      exact gains_of_addBuilt (d := .builtins policy) rfl hdefine

end Definition

end Session

/-! ## The same in place -/

namespace Edit

variable {α : Type}

theorem run_checkName (name : String) (s : Session α) :
    (checkName name).run s =
      match s.nameRefusal? name with
      | some error => .error error s
      | none => .ok () s := by
  cases hsymbol : isSymbolName name <;> cases hbound : s.bound name <;>
    simp [checkName, Session.nameRefusal?, hsymbol, hbound]

theorem run_addSharedVector (name : String) (cell : Cell (List α)) (s : Session α) :
    (addSharedVector name cell).run s =
      match s.addSharedVector name cell with
      | .error error => .error error s
      | .ok s' => .ok () s' := by
  unfold addSharedVector Session.addSharedVector
  rw [EStateM.run_bind, run_checkName]
  cases s.nameRefusal? name <;> rfl

/-- A vector that is refused has left a cell behind. -/
theorem run_addVector (name : String) (values : List α) (s : Session α) :
    (addVector name values).run s =
      match s.addVector name values with
      | .error error => .error error { s with vectorStore := s.vectorStore.create values }
      | .ok (cell, s') => .ok cell s' := by
  unfold addVector Session.addVector
  rw [EStateM.run_bind, createVector, EStateM.run_modifyGet]
  simp only [EStateM.run_bind, run_addSharedVector, Session.addSharedVector]
  have hname : ({ s with vectorStore := s.vectorStore.create values } : Session α).nameRefusal? name
      = s.nameRefusal? name := rfl
  rw [hname]
  cases s.nameRefusal? name <;> rfl

theorem run_addScalar (name : String) (value : α) (s : Session α) :
    (addScalar name value).run s =
      match s.addScalar name value with
      | .error error => .error error s
      | .ok (cell, s') => .ok cell s' := by
  unfold addScalar Session.addScalar
  rw [EStateM.run_bind, run_checkName]
  cases s.nameRefusal? name <;> rfl

theorem run_register (name : String) (function : Function α) (s : Session α) :
    (register name function).run s =
      match s.functions.register name function with
      | .error error => .error error s
      | .ok (id, functions) => .ok id { s with functions } := by
  unfold register Registry.register Registry.refusal?
  by_cases hcontains : s.functions.contains name = true
  · simp [hcontains]
  · by_cases hempty : function.signature.isEmpty = true
    · simp [hcontains, hempty]
    · by_cases hfull : maxFunctions ≤ s.functions.size
      · simp [hcontains, hempty, hfull]
      · have hpush : s.functions.push name function =
            ⟨s.functions.index.insert name s.functions.size,
              s.functions.entries.push ⟨name, function⟩⟩ := rfl
        simp [hcontains, hempty, hfull, hpush, -bind_pure_comp]

theorem run_addFunction (name : String) (function : Function α) (s : Session α) :
    (addFunction name function).run s =
      match s.addFunction name function with
      | .error error => .error error s
      | .ok s' => .ok () s' := by
  unfold addFunction Session.addFunction Session.functionRefusal?
  rw [EStateM.run_bind, run_checkName]
  cases s.nameRefusal? name with
  | some error => rfl
  | none =>
      simp only [EStateM.run_bind, run_register, Registry.register, Option.none_or]
      cases s.functions.refusal? name function <;> rfl

theorem run_addBuilt (name : String) (built : Except PatternError (Function α)) (s : Session α) :
    (addBuilt name built).run s =
      match s.addBuilt name built with
      | .error error => .error error s
      | .ok s' => .ok () s' := by
  cases built with
  | error defect => rfl
  | ok function => exact run_addFunction name function s

/-- What a refused definition has left behind when it stops. -/
def leftover (s : Session α) : Definition α → Session α
  | .vector _ values => { s with vectorStore := s.vectorStore.create values }
  | _ => s

/-- In place a definition does what it does at once, or stops with the same refusal. -/
theorem run_edit [FloatArith α] (d : Definition α) (s : Session α) :
    d.edit.run s =
      match s.define d with
      | .error error => .error error (leftover s d)
      | .ok s' => .ok () s' := by
  cases d with
  | vector name values =>
      rw [Definition.edit, EStateM.run_bind, run_addVector, Session.define]
      cases s.addVector name values <;> rfl
  | sharedVector name cell =>
      rw [Definition.edit, run_addSharedVector, Session.define]
      cases s.addSharedVector name cell <;> rfl
  | scalar name value =>
      rw [Definition.edit, EStateM.run_bind, run_addScalar, Session.define]
      cases s.addScalar name value <;> rfl
  | function name built =>
      rw [Definition.edit, run_addBuilt, Session.define]
      cases s.addBuilt name built <;> rfl
  | builtins policy =>
      rw [Definition.edit, addBuiltins, run_addBuilt, Session.define, Session.addBuiltins]
      cases s.addBuilt "norm" _ <;> rfl

/-- A cell without a name is no binding. -/
theorem sameBindings_leftover (s : Session α) (d : Definition α) :
    s.SameBindings (leftover s d) := by
  cases d with
  | vector name values =>
      refine ⟨rfl, rfl, rfl, ?_, fun _ _ => rfl⟩
      intro cell hcell
      exact Store.read?_create_of_created hcell values
  | sharedVector | scalar | function | builtins =>
      exact ⟨rfl, rfl, rfl, fun _ _ => rfl, fun _ _ => rfl⟩

end Edit

namespace Session

variable {α : Type}

/-- What every lookup finds is as it was. -/
theorem SameBindings.lookups {s s' : Session α} (hsame : s.SameBindings s') (hs : s.WellFormed)
    (name : String) :
    s'.vector? name = s.vector? name ∧ s'.scalar? name = s.scalar? name ∧
      s'.function? name = s.function? name := by
  refine ⟨?_, ?_, ?_⟩
  · rw [vector?, vector?, hsame.vectors]
    cases hcell : s.vectors[name]? with
    | none => rfl
    | some cell => exact hsame.vectorCells cell (hs.vectorCell name cell hcell)
  · rw [scalar?, scalar?, hsame.scalars]
    cases hcell : s.scalars[name]? with
    | none => rfl
    | some cell => exact hsame.scalarCells cell (hs.scalarCell name cell hcell)
  · rw [function?, function?, hsame.functions]

/-- What trying a definition on a session comes to. -/
structure Settles [FloatArith α] (s : Session α) (d : Definition α) : Prop where
  /-- It is refused with the first objection to it, and for no other reason. -/
  refused : ∀ error, s.define d = .error error ↔ s.FirstObjection d error
  /-- Without an objection it binds its name and changes nothing else. -/
  made : (∀ error, ¬ s.Objection d error) → ∃ s', s.define d = .ok s' ∧ s.Gains d s'
  /-- In place it comes to the same session. -/
  inPlace_made : ∀ s', d.edit.run s = .ok () s' ↔ s.define d = .ok s'
  /-- In place it is refused with the same error, and every table and every value that was bound
  is as before. -/
  inPlace_refused : ∀ error, s.define d = .error error → ∃ s', d.edit.run s = .error error s' ∧
    s.SameBindings s' ∧ ∀ name, s'.vector? name = s.vector? name ∧
      s'.scalar? name = s.scalar? name ∧ s'.function? name = s.function? name

theorem WellFormed.settles [FloatArith α] {s : Session α} (hs : s.WellFormed) (d : Definition α) :
    s.Settles d where
  refused := by
    intro error
    rw [define_eq_error_iff, refusal?_eq_some_iff hs]
  made := by
    intro hnone
    cases hdefine : s.define d with
    | error error =>
        rw [define_eq_error_iff, refusal?_eq_some_iff hs] at hdefine
        exact absurd hdefine.1 (hnone error)
    | ok s' => exact ⟨s', rfl, gains_of_define hdefine⟩
  inPlace_made := by
    intro s'
    rw [Edit.run_edit]
    cases s.define d <;> simp
  inPlace_refused := by
    intro error hdefine
    have hsame := Edit.sameBindings_leftover s d
    refine ⟨_, ?_, hsame, hsame.lookups hs⟩
    rw [Edit.run_edit, hdefine]

/-- **A definition is made as a whole or refused without a trace**, whatever was tried on the
session before. -/
theorem definitions_are_atomic [FloatArith α] (actions : List (Action α)) (d : Definition α) :
    (Host.empty.run actions).session.Settles d :=
  (Host.wellFormed_empty.run actions).session.settles d

/-- A bad pattern is reported before a bad name. -/
theorem define_bad_pattern_and_name :
    let d : Definition Float := .function "NaN" (.error (.emptyAlternative "V|"))
    let s := (Host.empty.run [] : Host Float).session
    s.Objection d (.invalidName "NaN") ∧
      s.define d = .error (.badPattern (.emptyAlternative "V|")) := by
  intro d s
  have hinvalid : s.Objection d (.invalidName d.name) := .invalidName (by decide)
  refine ⟨hinvalid, ((definitions_are_atomic [] d).refused _).mpr ⟨.badPattern rfl, ?_⟩⟩
  exact fun _ _ => Nat.zero_le _

end Session

end PNorm
