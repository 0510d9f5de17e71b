import Mathlib.Logic.Equiv.Basic
import PNorm.Proofs.Session.Atomicity
import PNorm.Proofs.Session.Locality
import PNorm.Proofs.Session.Record
import PNorm.Session.Edit

/-!
# Definitions in another order

A list of definitions that can be made one after the other can be made in any
order, and it makes no difference that can be seen: not in what a name is bound
to, nor in what a source text evaluates to (`definitions_commute`).

What does differ is where things are.  New cells get their addresses in the order
in which they are made, and functions their numbers.  `Readdressed` says of two
tables that they are the same up to a renaming of the cells, `Session.Rearranged`
of two sessions that their tables are, and that they have the same functions in
some order.  It is shown that

* two neighbours of a list can be exchanged, which renames at most the two cells
  they make (`exists_readdressed_swap`, `WellFormed.exists_rearranged_swap`);
* what comes afterwards keeps two rearranged sessions rearranged, by the same
  renaming (`Rearranged.place`, `Rearranged.defineAll`);
* so does every permutation, as permutations are made of exchanges
  (`exists_rearranged`).
-/

namespace PNorm

/-! ## One more name in a table -/

/-- The names of one type of values, and the cells of that type. -/
structure Bindings (β : Type) where
  names : Std.HashMap String (Cell β)
  store : Store β

/-- What a definition adds to a table: a name with a cell of its own, or a name for a cell that is
there. -/
inductive Addition (β : Type) where
  | fresh (name : String) (value : β)
  | known (name : String) (cell : Cell β)

namespace Addition

variable {β : Type}

def name : Addition β → String
  | .fresh name _ | .known name _ => name

/-- The cell behind the new name. -/
def cell (store : Store β) : Addition β → Cell β
  | .fresh _ _ => store.next
  | .known _ cell => cell

/-- The cells after the addition. -/
def extend (store : Store β) : Addition β → Store β
  | .fresh _ value => store.create value
  | .known _ _ => store

/-- The cell of an addition is there if it is not a new one. -/
def Known (store : Store β) (x : Addition β) : Prop :=
  ∀ name cell, x = .known name cell → store.Created cell

end Addition

namespace Bindings

variable {β : Type}

def add (t : Bindings β) (x : Addition β) : Bindings β :=
  ⟨t.names.insert x.name (x.cell t.store), x.extend t.store⟩

/-- Nothing or one name more. -/
def addAll (t : Bindings β) (x? : Option (Addition β)) : Bindings β :=
  x?.elim t t.add

end Bindings

theorem Store.not_created_next {β : Type} (store : Store β) : ¬ store.Created store.next := by
  simp [Created, read?, next]

/-- `t'` is `t` with other addresses for its cells. -/
structure Readdressed {β : Type} (π : Equiv.Perm (Cell β)) (t t' : Bindings β) : Prop where
  names : ∀ name : String, t'.names[name]? = t.names[name]?.map π
  read? : ∀ cell, t'.store.read? (π cell) = t.store.read? cell
  next : t'.store.next = t.store.next
  fixes : ∀ cell, ¬ t.store.Created cell → π cell = cell

namespace Readdressed

variable {β : Type} {π ρ : Equiv.Perm (Cell β)} {t t' t'' : Bindings β}

theorem refl (t : Bindings β) : Readdressed (Equiv.refl _) t t where
  names := by simp
  read? := fun _ => rfl
  next := rfl
  fixes := fun _ _ => rfl

/-- Two tables with the same cells are the same if they give the same cell for every name. -/
theorem of_names (hstore : t'.store = t.store)
    (hnames : ∀ name : String, t'.names[name]? = t.names[name]?) :
    Readdressed (Equiv.refl _) t t' where
  names := by simpa using hnames
  read? := by simp [hstore]
  next := by rw [hstore]
  fixes := fun _ _ => rfl

theorem created_iff (h : Readdressed π t t') (cell : Cell β) :
    t'.store.Created (π cell) ↔ t.store.Created cell := by
  rw [Store.Created, Store.Created, h.read?]

theorem trans (h : Readdressed π t t') (h' : Readdressed ρ t' t'') :
    Readdressed (π.trans ρ) t t'' where
  names := by
    intro name
    rw [h'.names, h.names, Option.map_map]
    rfl
  read? := by
    intro cell
    rw [Equiv.trans_apply, h'.read?, h.read?]
  next := h'.next.trans h.next
  fixes := by
    intro cell hcell
    have hfix := h.fixes cell hcell
    rw [Equiv.trans_apply, hfix]
    refine h'.fixes cell ?_
    rwa [← hfix, h.created_iff]

/-- A renaming keeps what both tables create next. -/
theorem apply_next (h : Readdressed π t t') : π t.store.next = t'.store.next := by
  rw [h.next]
  exact h.fixes _ t.store.not_created_next

/-- What is added to both tables is the same in both, as long as no cell for it is renamed. -/
theorem add (h : Readdressed π t t') {x : Addition β}
    (hx : ∀ name cell, x = .known name cell → π cell = cell) :
    Readdressed π (t.add x) (t'.add x) := by
  cases x with
  | fresh name value =>
      refine ⟨?_, ?_, ?_, ?_⟩
      · intro other
        simp only [Bindings.add, Addition.name, Addition.cell, Std.HashMap.getElem?_insert,
          beq_iff_eq, ← h.apply_next, h.names]
        split <;> rfl
      · intro cell
        simp only [Bindings.add, Addition.extend, Store.read?_create, ← h.apply_next,
          π.apply_eq_iff_eq, h.read?]
      · simp only [Bindings.add, Addition.extend, Store.next_create, h.next]
      · intro cell hcell
        exact h.fixes cell fun hold => hcell (t.store.keeps_create value cell hold)
  | known name cell =>
      refine ⟨?_, h.read?, h.next, h.fixes⟩
      intro other
      simp only [Bindings.add, Addition.name, Addition.cell, Std.HashMap.getElem?_insert,
        beq_iff_eq, h.names]
      split
      · rw [Option.map_some, hx name cell rfl]
      · rfl

theorem addAll (h : Readdressed π t t') {x? : Option (Addition β)}
    (hx : ∀ name cell, x? = some (.known name cell) → π cell = cell) :
    Readdressed π (t.addAll x?) (t'.addAll x?) := by
  cases x? with
  | none => exact h
  | some x => exact h.add fun name cell hknown => hx name cell (congrArg some hknown)

end Readdressed

/-! ### Two names in either order -/

theorem getElem?_insert_comm {β : Type} (m : Std.HashMap String β) {name other : String}
    (hne : name ≠ other) (value value' : β) (found : String) :
    ((m.insert name value).insert other value')[found]? =
      ((m.insert other value').insert name value)[found]? := by
  simp only [Std.HashMap.getElem?_insert, beq_iff_eq]
  by_cases hname : name = found
  · rw [if_pos hname, if_pos hname, if_neg]
    rintro rfl
    exact hne hname
  · rw [if_neg hname, if_neg hname]

section Swap

variable {β : Type} {t : Bindings β}

/-- What was created stays in its place when the next two cells change theirs. -/
theorem Store.Created.swap_apply {store : Store β} {cell : Cell β} (hcell : store.Created cell) :
    Equiv.swap store.next ⟨store.next.index + 1⟩ cell = cell := by
  refine Equiv.swap_apply_of_ne_of_ne ?_ ?_
  · rintro rfl
    exact store.not_created_next hcell
  · rintro rfl
    simp [Created, read?, next] at hcell

/-- Two cells that are made in the other order have changed places. -/
theorem readdressed_fresh_fresh
    (ht : ∀ (name : String) cell, t.names[name]? = some cell → t.store.Created cell)
    {name other : String} (hne : name ≠ other) (value value' : β) :
    Readdressed (Equiv.swap t.store.next ⟨t.store.next.index + 1⟩)
      ((t.add (.fresh name value)).add (.fresh other value'))
      ((t.add (.fresh other value')).add (.fresh name value)) := by
  have hcells : (⟨t.store.next.index + 1⟩ : Cell β) ≠ t.store.next := by
    intro heq
    simpa using congrArg Cell.index heq
  have hsecond (value : β) : (t.store.create value).next = ⟨t.store.next.index + 1⟩ :=
    t.store.next_create value
  refine ⟨?_, ?_, ?_, ?_⟩
  · -- The names: the two new ones have changed cells, and an old one has an old cell.
    intro found
    simp only [Bindings.add, Addition.name, Addition.cell, Addition.extend,
      Std.HashMap.getElem?_insert, beq_iff_eq, hsecond]
    by_cases hname : name = found
    · subst hname
      simp [hne.symm]
    · by_cases hother : other = found
      · simp [hname, hother]
      · rw [if_neg hname, if_neg hother, if_neg hother, if_neg hname]
        cases hcell : t.names[found]? with
        | none => rfl
        | some cell => rw [Option.map_some, (ht found cell hcell).swap_apply]
  · -- The values: each of the two new cells has the value that was meant for its name.
    intro cell
    simp only [Bindings.add, Addition.extend, Store.read?_create, hsecond]
    by_cases hfirst : cell = t.store.next
    · simp [hfirst, hcells.symm]
    · by_cases hnext : cell = ⟨t.store.next.index + 1⟩
      · simp [hnext, hcells.symm]
      · rw [Equiv.swap_apply_of_ne_of_ne hfirst hnext]
        simp [hfirst, hnext]
  · -- Two cells were made, whichever came first.
    simp only [Bindings.add, Addition.extend, Store.next_create]
  · intro cell hcell
    -- A cell that is not there yet is neither of the two.
    have hkeeps : (t.store.create value).Keeps ((t.store.create value).create value') :=
      Store.keeps_create _ _
    refine Equiv.swap_apply_of_ne_of_ne ?_ ?_
    · rintro rfl
      exact hcell (hkeeps _ (t.store.created_next value))
    · rintro rfl
      rw [← hsecond value] at hcell
      exact hcell (Store.created_next _ _)

/-- Two names can be added in either order, as long as neither is for the new cell of the other. -/
theorem exists_readdressed_swap
    (ht : ∀ (name : String) cell, t.names[name]? = some cell → t.store.Created cell)
    {x y : Addition β} (hne : x.name ≠ y.name) :
    ∃ π : Equiv.Perm (Cell β), (∀ cell, t.store.Created cell → π cell = cell) ∧
      Readdressed π ((t.add x).add y) ((t.add y).add x) := by
  cases x with
  | fresh name value =>
      cases y with
      | fresh other value' =>
          exact ⟨_, fun _ hcell => hcell.swap_apply,
            readdressed_fresh_fresh ht hne value value'⟩
      | known other cell =>
          exact ⟨Equiv.refl _, fun _ _ => rfl,
            .of_names rfl (getElem?_insert_comm t.names hne.symm _ _)⟩
  | known name cell =>
      exact ⟨Equiv.refl _, fun _ _ => rfl, .of_names (by cases y <;> rfl)
        (by cases y <;> exact getElem?_insert_comm t.names hne.symm _ _)⟩

theorem exists_readdressed_swap_all
    (ht : ∀ (name : String) cell, t.names[name]? = some cell → t.store.Created cell)
    (x? y? : Option (Addition β)) (hne : ∀ x y, x? = some x → y? = some y → x.name ≠ y.name) :
    ∃ π : Equiv.Perm (Cell β), (∀ cell, t.store.Created cell → π cell = cell) ∧
      Readdressed π ((t.addAll x?).addAll y?) ((t.addAll y?).addAll x?) := by
  cases x? with
  | none => exact ⟨Equiv.refl _, fun _ _ => rfl, .refl _⟩
  | some x =>
      cases y? with
      | none => exact ⟨Equiv.refl _, fun _ _ => rfl, .refl _⟩
      | some y => exact exists_readdressed_swap ht (hne x y rfl rfl)

end Swap

/-! ## Definitions -/

namespace Definition

variable {α : Type}

/-- What a definition adds to the vectors. -/
def vectorAddition? : Definition α → Option (Addition (List α))
  | .vector name values => some (.fresh name values)
  | .sharedVector name cell => some (.known name cell)
  | .scalar .. | .function .. | .builtins _ => none

/-- What a definition adds to the scalars. -/
def scalarAddition? : Definition α → Option (Addition α)
  | .scalar name value => some (.fresh name value)
  | .vector .. | .sharedVector .. | .function .. | .builtins _ => none

/-- The cell that a definition refers to is there. -/
def Known (s : Session α) (d : Definition α) : Prop :=
  ∀ name cell, d = .sharedVector name cell → s.vectorStore.Created cell

theorem Known.of_keeps {s s' : Session α} {d : Definition α} (hknown : d.Known s)
    (hkeeps : s.vectorStore.Keeps s'.vectorStore) : d.Known s' :=
  fun name cell hd => hkeeps cell (hknown name cell hd)

theorem name_of_vectorAddition? {d : Definition α} {x : Addition (List α)}
    (hx : d.vectorAddition? = some x) : x.name = d.name := by
  cases d <;> cases hx <;> rfl

theorem name_of_scalarAddition? {d : Definition α} {x : Addition α}
    (hx : d.scalarAddition? = some x) : x.name = d.name := by
  cases d <;> cases hx
  rfl

variable [FloatArith α]

/-- A definition of a function is without defects and there is room for the function. -/
def Fits (size : Nat) (d : Definition α) : Prop :=
  ∀ built, d.built? = some built →
    ∃ function, built = .ok function ∧ function.signature.isEmpty = false ∧ size < maxFunctions

end Definition

namespace Session

variable {α : Type}

def vectorBindings (s : Session α) : Bindings (List α) := ⟨s.vectors, s.vectorStore⟩

def scalarBindings (s : Session α) : Bindings α := ⟨s.scalars, s.scalarStore⟩

section Place

variable [FloatArith α]

/-- The functions after a definition, whatever was there. -/
def placeFunction (r : Registry α) (d : Definition α) : Registry α :=
  match d.built? with
  | some (.ok function) => r.push d.name function
  | _ => r

/-- The session after a definition, whatever was there. -/
def place (s : Session α) (d : Definition α) : Session α where
  vectors := (s.vectorBindings.addAll d.vectorAddition?).names
  scalars := (s.scalarBindings.addAll d.scalarAddition?).names
  functions := placeFunction s.functions d
  vectorStore := (s.vectorBindings.addAll d.vectorAddition?).store
  scalarStore := (s.scalarBindings.addAll d.scalarAddition?).store

theorem define_eq_place {s s' : Session α} {d : Definition α} (hdefine : s.define d = .ok s') :
    s' = s.place d := by
  cases d with
  | vector name values =>
      obtain ⟨⟨cell, s'⟩, hadd, rfl⟩ := Host.map_eq_ok_iff.mp hdefine
      obtain ⟨_, rfl, rfl⟩ := addVector_eq_ok_iff.mp hadd
      rfl
  | sharedVector name cell =>
      obtain ⟨_, rfl⟩ := addSharedVector_eq_ok_iff.mp hdefine
      rfl
  | scalar name value =>
      obtain ⟨⟨cell, s'⟩, hadd, rfl⟩ := Host.map_eq_ok_iff.mp hdefine
      obtain ⟨_, rfl, rfl⟩ := addScalar_eq_ok_iff.mp hadd
      rfl
  | function name built =>
      obtain ⟨function, rfl, _, rfl⟩ := addBuilt_eq_ok_iff.mp hdefine
      rfl
  | builtins policy =>
      rw [define, addBuiltins] at hdefine
      obtain ⟨function, hbuilt, _, rfl⟩ := addBuilt_eq_ok_iff.mp hdefine
      have hbuilt' : (Definition.builtins policy : Definition α).built? = some (.ok function) :=
        congrArg some hbuilt
      simp only [place, placeFunction, hbuilt']
      rfl

/-- A definition is made exactly if nothing is said against it. -/
theorem define_eq_ok_iff {s s' : Session α} {d : Definition α} :
    s.define d = .ok s' ↔ s.refusal? d = none ∧ s' = s.place d := by
  constructor
  · intro hdefine
    refine ⟨?_, define_eq_place hdefine⟩
    cases hrefusal : s.refusal? d with
    | none => rfl
    | some error =>
        rw [define_eq_error_iff.mpr hrefusal] at hdefine
        cases hdefine
  · intro h
    obtain ⟨hrefusal, rfl⟩ := h
    cases hdefine : s.define d with
    | error error =>
        rw [define_eq_error_iff.mp hdefine] at hrefusal
        cases hrefusal
    | ok s' => rw [define_eq_place hdefine]

theorem refusal?_eq_none_iff {s : Session α} {d : Definition α} :
    s.refusal? d = none ↔ isSymbolName d.name = true ∧ s.bound d.name = false ∧
      d.Fits s.functions.size := by
  unfold refusal? Definition.Fits
  cases d.built? with
  | none => simp [nameRefusal?_eq_none_iff]
  | some built =>
      cases built with
      | error defect => simp
      | ok function =>
          simp only [functionRefusal?_eq_none_iff, nameRefusal?_eq_none_iff,
            Registry.refusal?_eq_none_iff, Option.some.injEq, forall_eq', Except.ok.injEq,
            exists_eq_left', and_assoc]
          have hcontains : s.bound d.name = false → s.functions.contains d.name = false := by
            simp [bound]
          tauto

/-! ### What a definition leaves to the next -/

/-- The functions that a definition adds. -/
def functionCount (d : Definition α) : Nat :=
  if d.built?.isSome then 1 else 0

variable {s : Session α} {d : Definition α}

theorem size_place (hd : s.refusal? d = none) :
    (s.place d).functions.size = s.functions.size + functionCount d := by
  have hfits := (refusal?_eq_none_iff.mp hd).2.2
  unfold place placeFunction functionCount
  cases hbuilt : d.built? with
  | none => rfl
  | some built =>
      obtain ⟨function, rfl, _⟩ := hfits built hbuilt
      exact Registry.size_push _ _ _

theorem nameRefusal?_of_refusal? (hd : s.refusal? d = none) : s.nameRefusal? d.name = none := by
  obtain ⟨hsymbol, hfree, _⟩ := refusal?_eq_none_iff.mp hd
  exact (s.nameRefusal?_eq_none_iff d.name).mpr ⟨hsymbol, hfree⟩

/-- A definition that is not refused is one change. -/
theorem change_place (hd : s.refusal? d = none) (hknown : d.Known s) : s.Change (s.place d) := by
  have hname := nameRefusal?_of_refusal? hd
  cases d with
  | vector name values =>
      exact .vector name _ _ hname (Store.keeps_create _ _) (Store.created_next _ _)
  | sharedVector name cell =>
      exact .vector name cell _ hname (.refl _) (hknown name cell rfl)
  | scalar name value =>
      exact .scalar name _ _ hname (Store.keeps_create _ _) (Store.created_next _ _)
  | function name built =>
      exact change_of_addBuilt (define_eq_ok_iff.mpr ⟨hd, rfl⟩)
  | builtins policy =>
      have hdefine := define_eq_ok_iff.mpr ⟨hd, rfl⟩
      rw [define, addBuiltins] at hdefine
      exact change_of_addBuilt hdefine

theorem contains_addAll {β : Type} (t : Bindings β) (x? : Option (Addition β)) (name : String) :
    (t.addAll x?).names.contains name =
      ((x?.map Addition.name == some name) || t.names.contains name) := by
  cases x? with
  | none => rfl
  | some x => exact Std.HashMap.contains_insert

private theorem contains_placeFunction (hd : s.refusal? d = none) (name : String) :
    (placeFunction s.functions d).contains name =
      ((d.built?.isSome && d.name == name) || s.functions.contains name) := by
  have hfits := (refusal?_eq_none_iff.mp hd).2.2
  unfold placeFunction
  cases hbuilt : d.built? with
  | none => rfl
  | some built =>
      obtain ⟨function, rfl, _⟩ := hfits built hbuilt
      exact Std.HashMap.contains_insert

theorem bound_place (hd : s.refusal? d = none) (name : String) :
    (s.place d).bound name = (d.name == name || s.bound name) := by
  simp only [bound, place, contains_addAll, contains_placeFunction hd, vectorBindings,
    scalarBindings]
  cases d <;>
    simp [Definition.vectorAddition?, Definition.scalarAddition?, Definition.built?,
      Definition.name, Addition.name, Bool.or_assoc, Bool.or_left_comm]

/-- Another name is refused behind a definition if and only if it was refused before, but for the
room that a function takes. -/
theorem refusal?_place {other : Definition α} (hd : s.refusal? d = none) :
    (s.place d).refusal? other = none ↔
      isSymbolName other.name = true ∧ d.name ≠ other.name ∧ s.bound other.name = false ∧
        other.Fits (s.functions.size + functionCount d) := by
  rw [refusal?_eq_none_iff, bound_place hd, size_place hd, Bool.or_eq_false_iff,
    beq_eq_false_iff_ne]
  simp only [and_assoc]

/-- Two definitions that can be made one behind the other can be made the other way round. -/
theorem refusal?_swap {other : Definition α} (hd : s.refusal? d = none)
    (hother : (s.place d).refusal? other = none) :
    s.refusal? other = none ∧ (s.place other).refusal? d = none := by
  obtain ⟨hsymbol, hfree, hfits⟩ := refusal?_eq_none_iff.mp hd
  obtain ⟨hsymbol', hne, hfree', hfits'⟩ := (refusal?_place hd).mp hother
  have hfirst : s.refusal? other = none := by
    refine refusal?_eq_none_iff.mpr ⟨hsymbol', hfree', ?_⟩
    intro built hbuilt
    obtain ⟨function, rfl, haccepts, hroom⟩ := hfits' built hbuilt
    exact ⟨function, rfl, haccepts, by omega⟩
  refine ⟨hfirst, (refusal?_place hfirst).mpr ⟨hsymbol, hne.symm, hfree, ?_⟩⟩
  intro built hbuilt
  obtain ⟨function, rfl, haccepts, hroom⟩ := hfits built hbuilt
  refine ⟨function, rfl, haccepts, ?_⟩
  -- Where both are functions there was room for the second behind the first.
  cases hbuilt' : other.built? with
  | none => simpa [functionCount, hbuilt'] using hroom
  | some built' =>
      obtain ⟨_, _, _, hroom'⟩ := hfits' built' hbuilt'
      simpa [functionCount, hbuilt, hbuilt'] using hroom'

end Place

/-! ## Sessions in another order -/

/-- `s'` is `s` with other addresses for the cells and another order of the functions. -/
structure Rearranged (π : Equiv.Perm (Cell (List α))) (σ : Equiv.Perm (Cell α))
    (s s' : Session α) : Prop where
  vectors : Readdressed π s.vectorBindings s'.vectorBindings
  scalars : Readdressed σ s.scalarBindings s'.scalarBindings
  functions : s.functions.toList.Perm s'.functions.toList

namespace Rearranged

variable {π ρ : Equiv.Perm (Cell (List α))} {σ τ : Equiv.Perm (Cell α)} {s s' s'' : Session α}

theorem trans (h : Rearranged π σ s s') (h' : Rearranged ρ τ s' s'') :
    Rearranged (π.trans ρ) (σ.trans τ) s s'' :=
  ⟨h.vectors.trans h'.vectors, h.scalars.trans h'.scalars, h.functions.trans h'.functions⟩

theorem vector? (h : Rearranged π σ s s') (name : String) : s'.vector? name = s.vector? name := by
  show (s'.vectors[name]?).bind s'.vectorStore.read? = _
  rw [show s'.vectors[name]? = _ from h.vectors.names name, Option.bind_map]
  exact Option.bind_congr fun cell _ => h.vectors.read? cell

theorem scalar? (h : Rearranged π σ s s') (name : String) : s'.scalar? name = s.scalar? name := by
  show (s'.scalars[name]?).bind s'.scalarStore.read? = _
  rw [show s'.scalars[name]? = _ from h.scalars.names name, Option.bind_map]
  exact Option.bind_congr fun cell _ => h.scalars.read? cell

theorem function? (h : Rearranged π σ s s') (hs : s.WellFormed) (hs' : s'.WellFormed)
    (name : String) : s'.function? name = s.function? name := by
  refine Option.ext fun function => ?_
  rw [hs.function?_eq_some_iff, hs'.function?_eq_some_iff, h.functions.mem_iff]

theorem contains (h : Rearranged π σ s s') (hs : s.WellFormed) (hs' : s'.WellFormed)
    (name : String) : s'.functions.contains name = s.functions.contains name := by
  rw [← hs.isSome_function?, ← hs'.isSome_function?, h.function? hs hs']

theorem bound (h : Rearranged π σ s s') (hs : s.WellFormed) (hs' : s'.WellFormed)
    (name : String) : s'.bound name = s.bound name := by
  have hvectors : s'.vectors.contains name = s.vectors.contains name := by
    rw [← hs.isSome_vector?, ← hs'.isSome_vector?, h.vector?]
  have hscalars : s'.scalars.contains name = s.scalars.contains name := by
    rw [← hs.isSome_scalar?, ← hs'.isSome_scalar?, h.scalar?]
  rw [Session.bound, Session.bound, hvectors, hscalars, h.contains hs hs']

variable [FloatArith α]

theorem evaluate (h : Rearranged π σ s s') (hs : s.WellFormed) (hs' : s'.WellFormed)
    (source : String) : s'.evaluate source = s.evaluate source := by
  rw [Session.evaluate, Session.evaluate]
  cases Call.parse source with
  | error refusal => rfl
  | ok call =>
      exact AgreeOn.evaluateCall ⟨h.function? hs hs' call.name, fun name _ => h.vector? name,
        fun name _ => h.scalar? name⟩

theorem refusal? (h : Rearranged π σ s s') (hs : s.WellFormed) (hs' : s'.WellFormed)
    (d : Definition α) : s'.refusal? d = none ↔ s.refusal? d = none := by
  have hsize : s'.functions.size = s.functions.size := h.functions.length_eq.symm
  rw [refusal?_eq_none_iff, refusal?_eq_none_iff, h.bound hs hs', hsize]

private theorem perm_placeFunction {r r' : Registry α} (h : r.toList.Perm r'.toList)
    (d : Definition α) : (placeFunction r d).toList.Perm (placeFunction r' d).toList := by
  unfold placeFunction
  split
  · simp only [Registry.push, Registry.toList, Array.toList_push]
    exact h.append_right _
  · exact h

theorem place (h : Rearranged π σ s s') {d : Definition α}
    (hd : ∀ name cell, d = .sharedVector name cell → π cell = cell) :
    Rearranged π σ (s.place d) (s'.place d) where
  vectors := by
    refine h.vectors.addAll fun name cell hx => hd name cell ?_
    cases d <;> cases hx
    rfl
  scalars := by
    refine h.scalars.addAll fun name cell hx => ?_
    cases d <;> cases hx
  functions := perm_placeFunction h.functions d

theorem define (h : Rearranged π σ s s') (hs : s.WellFormed) (hs' : s'.WellFormed)
    {d : Definition α} (hd : ∀ name cell, d = .sharedVector name cell → π cell = cell)
    {t : Session α} (hdefine : s.define d = .ok t) :
    ∃ t', s'.define d = .ok t' ∧ Rearranged π σ t t' := by
  obtain ⟨hrefusal, rfl⟩ := define_eq_ok_iff.mp hdefine
  refine ⟨s'.place d, define_eq_ok_iff.mpr ⟨?_, rfl⟩, h.place hd⟩
  rwa [h.refusal? hs hs']

end Rearranged

section Runs

variable [FloatArith α] {s t : Session α}

theorem change_define {d : Definition α} (hknown : d.Known s) (hdefine : s.define d = .ok t) :
    s.Change t := by
  obtain ⟨hrefusal, rfl⟩ := define_eq_ok_iff.mp hdefine
  exact change_place hrefusal hknown

theorem defineAll_cons {d : Definition α} {defs : List (Definition α)}
    (hrun : s.defineAll (d :: defs) = .ok t) :
    ∃ s', s.define d = .ok s' ∧ s'.defineAll defs = .ok t := by
  rw [defineAll] at hrun
  cases hdefine : s.define d with
  | error error => rw [hdefine] at hrun; cases hrun
  | ok s' =>
      rw [hdefine] at hrun
      exact ⟨s', rfl, hrun⟩

end Runs

/-- Of two rearranged sessions a list of definitions makes two rearranged sessions. -/
theorem Rearranged.defineAll [FloatArith α] {π : Equiv.Perm (Cell (List α))}
    {σ : Equiv.Perm (Cell α)} {defs : List (Definition α)} {s s' t : Session α}
    (h : Rearranged π σ s s') (hs : s.WellFormed) (hs' : s'.WellFormed)
    (hknown : ∀ d ∈ defs, d.Known s)
    (hfixes : ∀ name cell, .sharedVector name cell ∈ defs → π cell = cell)
    (hrun : s.defineAll defs = .ok t) :
    ∃ t', s'.defineAll defs = .ok t' ∧ Rearranged π σ t t' := by
  induction defs generalizing s s' with
  | nil =>
      cases hrun
      exact ⟨s', rfl, h⟩
  | cons d defs ih =>
      obtain ⟨s₁, hdefine, hrest⟩ := defineAll_cons hrun
      have hd : ∀ name cell, d = .sharedVector name cell → π cell = cell := by
        rintro name cell rfl
        exact hfixes name cell List.mem_cons_self
      obtain ⟨s₁', hdefine', h₁⟩ := h.define hs hs' hd hdefine
      have hknown' : d.Known s' := by
        intro name cell heq
        rw [← hd name cell heq]
        exact (h.vectors.created_iff cell).mpr (hknown d List.mem_cons_self name cell heq)
      have hchange := change_define (hknown d List.mem_cons_self) hdefine
      have hs₁' := hs'.of_change (change_define hknown' hdefine')
      obtain ⟨t', hrest', ht⟩ := ih h₁ (hs.of_change hchange) hs₁'
        (fun other hother =>
          (hknown other (List.mem_cons_of_mem d hother)).of_keeps hchange.vectorStore_keeps)
        (fun name cell hmem => hfixes name cell (List.mem_cons_of_mem d hmem)) hrest
      refine ⟨t', ?_, ht⟩
      rw [Session.defineAll, hdefine']
      exact hrest'

/-! ## Permutations -/

section Permutations

variable [FloatArith α] {s t : Session α}

private theorem perm_placeFunction_swap (r : Registry α) (d other : Definition α) :
    (placeFunction (placeFunction r d) other).toList.Perm
      (placeFunction (placeFunction r other) d).toList := by
  have htoList (d : Definition α) : ∃ added, ∀ r : Registry α,
      (placeFunction r d).toList = r.toList ++ added := by
    unfold placeFunction
    split
    · exact ⟨_, fun r => Array.toList_push⟩
    · exact ⟨[], fun r => (List.append_nil _).symm⟩
  obtain ⟨added, hd⟩ := htoList d
  obtain ⟨added', hother⟩ := htoList other
  rw [hother, hd, hd, hother, List.append_assoc, List.append_assoc]
  exact List.perm_append_comm.append_left _

/-- Two neighbours can be exchanged. -/
theorem WellFormed.exists_rearranged_swap (hs : s.WellFormed) {d other : Definition α}
    (hd : s.refusal? d = none) (hother : (s.place d).refusal? other = none) :
    ∃ π σ, Rearranged π σ ((s.place d).place other) ((s.place other).place d) ∧
      (∀ cell, s.vectorStore.Created cell → π cell = cell) ∧
      ∀ cell, s.scalarStore.Created cell → σ cell = cell := by
  have hne := ((refusal?_place hd).mp hother).2.1
  obtain ⟨π, hπ, hvectors⟩ := exists_readdressed_swap_all (t := s.vectorBindings) hs.vectorCell
    d.vectorAddition? other.vectorAddition? (by
      intro x y hx hy
      rwa [Definition.name_of_vectorAddition? hx, Definition.name_of_vectorAddition? hy])
  obtain ⟨σ, hσ, hscalars⟩ := exists_readdressed_swap_all (t := s.scalarBindings) hs.scalarCell
    d.scalarAddition? other.scalarAddition? (by
      intro x y hx hy
      rwa [Definition.name_of_scalarAddition? hx, Definition.name_of_scalarAddition? hy])
  exact ⟨π, σ, ⟨hvectors, hscalars, perm_placeFunction_swap _ _ _⟩, hπ, hσ⟩

private theorem exists_rearranged {defs defs' : List (Definition α)} (hperm : defs.Perm defs')
    (hs : s.WellFormed) (hknown : ∀ d ∈ defs, d.Known s) (hrun : s.defineAll defs = .ok t) :
    ∃ t' π σ, s.defineAll defs' = .ok t' ∧ Rearranged π σ t t' ∧
      (∀ cell, s.vectorStore.Created cell → π cell = cell) ∧
      ∀ cell, s.scalarStore.Created cell → σ cell = cell := by
  induction hperm generalizing s t with
  | nil =>
      cases hrun
      exact ⟨s, Equiv.refl _, Equiv.refl _, rfl, ⟨.refl _, .refl _, .refl _⟩, fun _ _ => rfl,
        fun _ _ => rfl⟩
  | cons d _ ih =>
      -- The first definition is the same, and it is made on the same session.
      obtain ⟨s₁, hdefine, hrest⟩ := defineAll_cons hrun
      have hchange := change_define (hknown d List.mem_cons_self) hdefine
      obtain ⟨t', π, σ, hrest', ht, hπ, hσ⟩ := ih (hs.of_change hchange)
        (fun other hother =>
          (hknown other (List.mem_cons_of_mem d hother)).of_keeps hchange.vectorStore_keeps) hrest
      refine ⟨t', π, σ, ?_, ht, ?_, ?_⟩
      · rw [defineAll, hdefine]
        exact hrest'
      · exact fun cell hcell => hπ cell (hchange.vectorStore_keeps cell hcell)
      · exact fun cell hcell => hσ cell (hchange.scalarStore_keeps cell hcell)
  | swap d other defs =>
      obtain ⟨s₁, hother, hrun₁⟩ := defineAll_cons hrun
      obtain ⟨s₂, hd, hrest⟩ := defineAll_cons hrun₁
      obtain ⟨hrefusal, rfl⟩ := define_eq_ok_iff.mp hother
      obtain ⟨hrefusal₁, rfl⟩ := define_eq_ok_iff.mp hd
      obtain ⟨hrefusal', hrefusal₁'⟩ := refusal?_swap hrefusal hrefusal₁
      obtain ⟨π, σ, hswap, hπ, hσ⟩ := hs.exists_rearranged_swap hrefusal hrefusal₁
      have hknownOther : other.Known s := hknown other (by simp)
      have hknownD : d.Known s := hknown d (by simp)
      -- Both pairs of changes keep the session well formed, and what was there stays there.
      have hchange := change_place hrefusal hknownOther
      have hchange₁ := change_place hrefusal₁ (hknownD.of_keeps hchange.vectorStore_keeps)
      have hchange' := change_place hrefusal' hknownD
      have hchange₁' := change_place hrefusal₁' (hknownOther.of_keeps hchange'.vectorStore_keeps)
      have hrestKnown : ∀ later ∈ defs, later.Known ((s.place other).place d) := by
        intro later hlater
        have hknownLater : later.Known s := hknown later (by simp [hlater])
        exact (hknownLater.of_keeps hchange.vectorStore_keeps).of_keeps hchange₁.vectorStore_keeps
      have hfixes : ∀ name cell, .sharedVector name cell ∈ defs → π cell = cell := by
        intro name cell hmem
        exact hπ cell (hknown (.sharedVector name cell) (by simp [hmem]) name cell rfl)
      obtain ⟨t', hrest', ht⟩ := hswap.defineAll ((hs.of_change hchange).of_change hchange₁)
        ((hs.of_change hchange').of_change hchange₁') hrestKnown hfixes hrest
      refine ⟨t', π, σ, ?_, ht, hπ, hσ⟩
      simp only [defineAll, define_eq_ok_iff.mpr ⟨hrefusal', rfl⟩,
        define_eq_ok_iff.mpr ⟨hrefusal₁', rfl⟩]
      exact hrest'
  | trans hperm _ ih ih' =>
      -- Two renamings after each other; what was there at the start is moved by neither.
      obtain ⟨t', π, σ, hrun', ht, hπ, hσ⟩ := ih hs hknown hrun
      obtain ⟨t'', ρ, τ, hrun'', ht', hρ, hτ⟩ :=
        ih' hs (fun d hd => hknown d (hperm.mem_iff.mpr hd)) hrun'
      refine ⟨t'', π.trans ρ, σ.trans τ, hrun'', ht.trans ht', ?_, ?_⟩
      · intro cell hcell
        rw [Equiv.trans_apply, hπ cell hcell, hρ cell hcell]
      · intro cell hcell
        rw [Equiv.trans_apply, hσ cell hcell, hτ cell hcell]

/-- A list of definitions that is made leaves a session well formed. -/
theorem WellFormed.defineAll {defs : List (Definition α)} (hs : s.WellFormed)
    (hknown : ∀ d ∈ defs, d.Known s) (hrun : s.defineAll defs = .ok t) : t.WellFormed := by
  induction defs generalizing s with
  | nil =>
      cases hrun
      exact hs
  | cons d defs ih =>
      obtain ⟨s₁, hdefine, hrest⟩ := defineAll_cons hrun
      have hchange := change_define (hknown d List.mem_cons_self) hdefine
      exact ih (hs.of_change hchange) (fun other hother =>
        (hknown other (List.mem_cons_of_mem d hother)).of_keeps hchange.vectorStore_keeps) hrest

/-- No difference between `t` and `t'` can be seen, but for the order of the functions. -/
structure SameToUser (t t' : Session α) : Prop where
  vector? : ∀ name, t'.vector? name = t.vector? name
  scalar? : ∀ name, t'.scalar? name = t.scalar? name
  function? : ∀ name, t'.function? name = t.function? name
  bound : ∀ name, t'.bound name = t.bound name
  evaluate : ∀ source, t'.evaluate source = t.evaluate source
  /-- The same names with the same patterns are listed. -/
  listing : (t'.functions.toList.map fun entry =>
      (entry.name, entry.function.signature.pattern)).Perm
    (t.functions.toList.map fun entry => (entry.name, entry.function.signature.pattern))

theorem Rearranged.sameToUser {π : Equiv.Perm (Cell (List α))} {σ : Equiv.Perm (Cell α)}
    {t t' : Session α} (h : Rearranged π σ t t') (ht : t.WellFormed) (ht' : t'.WellFormed) :
    t.SameToUser t' where
  vector? := h.vector?
  scalar? := h.scalar?
  function? := h.function? ht ht'
  bound := h.bound ht ht'
  evaluate := h.evaluate ht ht'
  listing := (h.functions.map _).symm

end Permutations

/-- **The order of definitions does not matter.**  If a list of definitions can be made one after
the other, whatever was tried on the session before, it can be made in every other order, and every
lookup and every evaluation comes to the same.  The functions are listed in another order, and the
new cells have changed their addresses among themselves. -/
theorem definitions_commute [FloatArith α] (actions : List (Action α))
    (defs defs' : List (Definition α)) (hperm : defs.Perm defs')
    (hknown : ∀ d ∈ defs, d.Known (Host.empty.run actions).session) (t : Session α)
    (hrun : (Host.empty.run actions).session.defineAll defs = .ok t) :
    ∃ t', (Host.empty.run actions).session.defineAll defs' = .ok t' ∧ t.SameToUser t' ∧
      ∃ π σ, Rearranged π σ t t' ∧
        (∀ cell, (Host.empty.run actions).session.vectorStore.Created cell → π cell = cell) ∧
        ∀ cell, (Host.empty.run actions).session.scalarStore.Created cell → σ cell = cell := by
  have hs : (Host.empty.run actions : Host α).session.WellFormed :=
    (Host.wellFormed_empty.run actions).session
  obtain ⟨t', π, σ, hrun', hrearranged, hπ, hσ⟩ := exists_rearranged hperm hs hknown hrun
  have hknown' : ∀ d ∈ defs', d.Known (Host.empty.run actions).session :=
    fun d hd => hknown d (hperm.mem_iff.mpr hd)
  exact ⟨t', hrun', hrearranged.sameToUser (hs.defineAll hknown hrun) (hs.defineAll hknown' hrun'),
    π, σ, hrearranged, hπ, hσ⟩

/-- Two functions and a vector, forwards and backwards. -/
theorem two_functions_and_a_vector :
    let f : Definition Float := .function "f" (.ok (Function.count ⟨[[.vector]]⟩))
    let g : Definition Float := .function "g" (.ok (Function.count ⟨[[.scalar]]⟩))
    let x : Definition Float := .vector "x" [1.0]
    let s : Session Float := (Host.empty.run []).session
    [f, x, g].Perm [g, x, f] ∧ ∃ t t', s.defineAll [f, x, g] = .ok t ∧
      s.defineAll [g, x, f] = .ok t' ∧ t.SameToUser t' := by
  intro f g x s
  have hperm : [f, x, g].Perm [g, x, f] := List.reverse_perm [g, x, f]
  have hfree (name : String) : s.bound name = false := bound_empty name
  have hfits : f.Fits 0 ∧ g.Fits 1 := by
    constructor <;> intro built hbuilt <;> cases hbuilt <;> exact ⟨_, rfl, rfl, by decide⟩
  have hf : s.refusal? f = none := refusal?_eq_none_iff.mpr ⟨by decide, hfree _, hfits.1⟩
  have hx : (s.place f).refusal? x = none :=
    (refusal?_place hf).mpr ⟨by decide, by decide, hfree _, fun _ hbuilt => by cases hbuilt⟩
  have hg : ((s.place f).place x).refusal? g = none := by
    refine (refusal?_place hx).mpr ⟨by decide, by decide, ?_, hfits.2⟩
    rw [bound_place hf, hfree]
    decide
  have hrun : s.defineAll [f, x, g] = .ok (((s.place f).place x).place g) := by
    simp only [defineAll, define_eq_ok_iff.mpr ⟨hf, rfl⟩, define_eq_ok_iff.mpr ⟨hx, rfl⟩,
      define_eq_ok_iff.mpr ⟨hg, rfl⟩]
  have hknown : ∀ d ∈ [f, x, g], d.Known s := by
    rintro d hd name cell rfl
    simp [f, g, x] at hd
  obtain ⟨t', hrun', hsame, _⟩ := definitions_commute [] _ _ hperm hknown _ hrun
  exact ⟨hperm, _, t', hrun, hrun', hsame⟩

end Session

end PNorm
