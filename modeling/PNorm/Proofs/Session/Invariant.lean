import PNorm.Proofs.Session.Registry
import PNorm.Session.Symbols

/-!
# What every session keeps

Vectors, scalars and functions sit in three separate tables, and nothing but the
refusal of names in use holds them apart.  `Session.WellFormed` says what this
refusal achieves: no name is in two tables, every name in them is a symbol name,
every name of a value has a cell behind it, and the registry is coherent.

What one action can do to a session is said once, by `Session.Change`: it binds
one new name, or it touches the stores alone.  Both invariants are read off that
list:

* `WellFormed.of_change`: a change keeps a session well formed;
* `Extends.of_change`: a change gives up no binding.

The roles of a name are kept as a list of three truth values, so that one new
name is one equation (`roles_insert_vector` and its two companions), and
`WellFormed.names_of_roles` needs to be shown only once.  The obvious
alternative, three statements that two tables are disjoint, would ask for two of
them again at every new name.

The last part is for reading: what a lookup finds in a session that has got one
more name (`vector?_insert_create`, `scalar?_insert_create`,
`function?_pushFunction_of_ne`).  Sessions that are built by a few actions are
read through these, not by opening the actions.

`PNorm.Proofs.Session.Runs` carries them over to whole runs.
-/

namespace PNorm

namespace Session

variable {α : Type}

/-- In which of the three tables a name is. -/
def roles (s : Session α) (name : String) : List Bool :=
  [s.vectors.contains name, s.scalars.contains name, s.functions.contains name]

theorem bound_eq_any_roles (s : Session α) (name : String) :
    s.bound name = (s.roles name).any id := by
  simp [bound, roles, Bool.or_assoc]

theorem nameRefusal?_eq_none_iff (s : Session α) (name : String) :
    s.nameRefusal? name = none ↔ isSymbolName name = true ∧ s.bound name = false := by
  unfold nameRefusal?
  cases isSymbolName name <;> cases s.bound name <;> simp

theorem functionRefusal?_eq_none_iff (s : Session α) (name : String) (function : Function α) :
    s.functionRefusal? name function = none ↔
      s.nameRefusal? name = none ∧ s.functions.refusal? name function = none := by
  unfold functionRefusal?
  rw [Option.or_eq_none_iff]

@[simp] theorem bound_empty (name : String) : (empty : Session α).bound name = false := by
  simp [bound, empty, Registry.contains, Registry.empty]

@[simp] theorem bound_pushFunction (s : Session α) (name other : String) (function : Function α) :
    (s.pushFunction name function).bound other = (name == other || s.bound other) := by
  simp [bound, pushFunction, Registry.contains, Registry.push, Std.HashMap.contains_insert,
    Bool.or_left_comm]

/-- Every symbol name is free at first. -/
theorem nameRefusal?_empty {name : String} (hname : isSymbolName name = true) :
    (empty : Session α).nameRefusal? name = none :=
  (nameRefusal?_eq_none_iff _ _).mpr ⟨hname, bound_empty name⟩

/-- A function takes no name but its own. -/
theorem nameRefusal?_pushFunction_of_ne (s : Session α) {name other : String}
    (function : Function α) (hne : name ≠ other) :
    (s.pushFunction name function).nameRefusal? other = s.nameRefusal? other := by
  rw [nameRefusal?, nameRefusal?, bound_pushFunction, beq_false_of_ne hne, Bool.false_or]

/-- A session with one function has every other symbol name free. -/
theorem nameRefusal?_pushFunction_empty {name other : String} (function : Function α)
    (hname : isSymbolName other = true) (hne : name ≠ other) :
    (empty.pushFunction name function).nameRefusal? other = none := by
  rw [nameRefusal?_pushFunction_of_ne _ _ hne, nameRefusal?_empty hname]

theorem functionRefusal?_empty {name : String} {function : Function α}
    (hname : isSymbolName name = true) (haccepts : function.signature.isEmpty = false) :
    (empty : Session α).functionRefusal? name function = none := by
  refine (functionRefusal?_eq_none_iff _ _ _).mpr ⟨nameRefusal?_empty hname, ?_⟩
  refine (Registry.refusal?_eq_none_iff _ _ _).mpr ⟨?_, haccepts, ?_⟩
  · simp [empty, Registry.contains, Registry.empty]
  · simp [empty, Registry.size, Registry.empty, maxFunctions]

/-- What holds of every session that a host can build. -/
structure WellFormed (s : Session α) : Prop where
  functions : s.functions.Coherent
  vectorCell : ∀ (name : String) cell, s.vectors[name]? = some cell → s.vectorStore.Created cell
  scalarCell : ∀ (name : String) cell, s.scalars[name]? = some cell → s.scalarStore.Created cell
  oneRole : ∀ name, (s.roles name).count true ≤ 1
  symbolName : ∀ name, s.bound name = true → isSymbolName name = true

theorem roles_empty (name : String) : (empty : Session α).roles name = [false, false, false] := by
  simp [roles, empty, Registry.contains, Registry.empty]

theorem wellFormed_empty : (empty : Session α).WellFormed where
  functions := Registry.coherent_empty
  vectorCell := by
    intro name cell hcell
    simp [empty] at hcell
  scalarCell := by
    intro name cell hcell
    simp [empty] at hcell
  oneRole := by
    intro name
    rw [roles_empty]
    decide
  symbolName := by
    intro name hname
    rw [bound_eq_any_roles, roles_empty] at hname
    cases hname

/-- Everything that one action can do to a session. -/
inductive Change (s : Session α) : Session α → Prop where
  | vector (name : String) (cell : Cell (List α)) (store : Store (List α))
      (hname : s.nameRefusal? name = none) (hstore : s.vectorStore.Keeps store)
      (hcell : store.Created cell) :
      Change s { s with vectors := s.vectors.insert name cell, vectorStore := store }
  | scalar (name : String) (cell : Cell α) (store : Store α)
      (hname : s.nameRefusal? name = none) (hstore : s.scalarStore.Keeps store)
      (hcell : store.Created cell) :
      Change s { s with scalars := s.scalars.insert name cell, scalarStore := store }
  | function (name : String) (function : Function α)
      (hname : s.functionRefusal? name function = none) : Change s (s.pushFunction name function)
  | stores (vectorStore : Store (List α)) (scalarStore : Store α)
      (hvectors : s.vectorStore.Keeps vectorStore) (hscalars : s.scalarStore.Keeps scalarStore) :
      Change s { s with vectorStore, scalarStore }

/-! ### One more name -/

section NewName

variable {s : Session α} {name : String}

theorem roles_of_fresh (hname : s.nameRefusal? name = none) :
    s.roles name = [false, false, false] := by
  have hfree := ((s.nameRefusal?_eq_none_iff name).mp hname).2
  simpa [bound, roles, and_assoc] using hfree

theorem roles_insert_vector (hname : s.nameRefusal? name = none) (cell : Cell (List α))
    (store : Store (List α)) (other : String) :
    roles { s with vectors := s.vectors.insert name cell, vectorStore := store } other =
      if name = other then [true, false, false] else s.roles other := by
  by_cases hother : name = other
  · subst hother
    have hold := roles_of_fresh hname
    simp only [roles, List.cons.injEq, Std.HashMap.contains_insert, beq_self_eq_true,
      Bool.true_or, if_true] at hold ⊢
    exact ⟨trivial, hold.2⟩
  · simp [roles, Std.HashMap.contains_insert, hother]

theorem roles_insert_scalar (hname : s.nameRefusal? name = none) (cell : Cell α)
    (store : Store α) (other : String) :
    roles { s with scalars := s.scalars.insert name cell, scalarStore := store } other =
      if name = other then [false, true, false] else s.roles other := by
  by_cases hother : name = other
  · subst hother
    have hold := roles_of_fresh hname
    simp only [roles, List.cons.injEq, Std.HashMap.contains_insert, beq_self_eq_true,
      Bool.true_or, if_true] at hold ⊢
    exact ⟨hold.1, trivial, hold.2.2⟩
  · simp [roles, Std.HashMap.contains_insert, hother]

theorem roles_pushFunction (hname : s.nameRefusal? name = none) (function : Function α)
    (other : String) :
    (s.pushFunction name function).roles other =
      if name = other then [false, false, true] else s.roles other := by
  have hcontains : (s.functions.push name function).contains other =
      (name == other || s.functions.contains other) := Std.HashMap.contains_insert
  by_cases hother : name = other
  · subst hother
    have hold := roles_of_fresh hname
    simp only [roles, List.cons.injEq, pushFunction, hcontains, beq_self_eq_true,
      Bool.true_or, if_true] at hold ⊢
    exact ⟨hold.1, hold.2.1, trivial⟩
  · simp [roles, pushFunction, hcontains, hother]

/-- One new symbol name with one role keeps the names apart and valid. -/
theorem WellFormed.names_of_roles (hs : s.WellFormed) (hname : s.nameRefusal? name = none)
    {s' : Session α} {role : List Bool} (hrole : role.count true ≤ 1)
    (hroles : ∀ other, s'.roles other = if name = other then role else s.roles other) :
    (∀ other, (s'.roles other).count true ≤ 1) ∧
      ∀ other, s'.bound other = true → isSymbolName other = true := by
  constructor
  · intro other
    rw [hroles]
    split
    · exact hrole
    · exact hs.oneRole other
  · -- A name that is bound afterwards is the new one or was bound before.
    intro other hother
    by_cases hsame : name = other
    · exact hsame ▸ ((s.nameRefusal?_eq_none_iff name).mp hname).1
    · rw [bound_eq_any_roles, hroles, if_neg hsame, ← bound_eq_any_roles] at hother
      exact hs.symbolName other hother

end NewName

/-- A change keeps the invariant. -/
theorem WellFormed.of_change {s s' : Session α} (hs : s.WellFormed) (hchange : s.Change s') :
    s'.WellFormed := by
  cases hchange with
  | vector name cell store hname hstore hcell =>
      obtain ⟨hone, hsymbol⟩ :=
        hs.names_of_roles hname (by decide) (roles_insert_vector hname cell store)
      refine ⟨hs.functions, ?_, hs.scalarCell, hone, hsymbol⟩
      -- The new name finds the cell that comes with the change; every other finds what it found.
      intro other found hfound
      rw [Std.HashMap.getElem?_insert] at hfound
      split at hfound
      · cases hfound
        exact hcell
      · exact hstore found (hs.vectorCell other found hfound)
  | scalar name cell store hname hstore hcell =>
      obtain ⟨hone, hsymbol⟩ :=
        hs.names_of_roles hname (by decide) (roles_insert_scalar hname cell store)
      refine ⟨hs.functions, hs.vectorCell, ?_, hone, hsymbol⟩
      intro other found hfound
      rw [Std.HashMap.getElem?_insert] at hfound
      split at hfound
      · cases hfound
        exact hcell
      · exact hstore found (hs.scalarCell other found hfound)
  | function name function hname =>
      obtain ⟨hfresh, hregistry⟩ := (s.functionRefusal?_eq_none_iff name function).mp hname
      obtain ⟨hone, hsymbol⟩ :=
        hs.names_of_roles hfresh (by decide) (roles_pushFunction hfresh function)
      -- The values are not touched, and the registry gets an entry that it does not refuse.
      exact ⟨hs.functions.push hregistry, hs.vectorCell, hs.scalarCell, hone, hsymbol⟩
  | stores vectorStore scalarStore hvectors hscalars =>
      -- No name is touched, and the stores lose no cell.
      refine ⟨hs.functions, ?_, ?_, hs.oneRole, hs.symbolName⟩
      · intro name cell hcell
        exact hvectors cell (hs.vectorCell name cell hcell)
      · intro name cell hcell
        exact hscalars cell (hs.scalarCell name cell hcell)

theorem Change.vectorStore_keeps {s s' : Session α} (hchange : s.Change s') :
    s.vectorStore.Keeps s'.vectorStore := by
  cases hchange with
  | vector name cell store hname hstore hcell => exact hstore
  | scalar name cell store hname hstore hcell => exact .refl _
  | function name function hname => exact .refl _
  | stores vectorStore scalarStore hvectors hscalars => exact hvectors

theorem Change.scalarStore_keeps {s s' : Session α} (hchange : s.Change s') :
    s.scalarStore.Keeps s'.scalarStore := by
  cases hchange with
  | vector name cell store hname hstore hcell => exact .refl _
  | scalar name cell store hname hstore hcell => exact hstore
  | function name function hname => exact .refl _
  | stores vectorStore scalarStore hvectors hscalars => exact hscalars

/-! ### Looking up -/

theorem WellFormed.isSome_vector? {s : Session α} (hs : s.WellFormed) (name : String) :
    (s.vector? name).isSome = s.vectors.contains name := by
  rw [Std.HashMap.contains_eq_isSome_getElem?, vector?]
  cases hcell : s.vectors[name]? with
  | none => rfl
  | some cell => exact hs.vectorCell name cell hcell

theorem WellFormed.isSome_scalar? {s : Session α} (hs : s.WellFormed) (name : String) :
    (s.scalar? name).isSome = s.scalars.contains name := by
  rw [Std.HashMap.contains_eq_isSome_getElem?, scalar?]
  cases hcell : s.scalars[name]? with
  | none => rfl
  | some cell => exact hs.scalarCell name cell hcell

theorem WellFormed.isSome_function? {s : Session α} (hs : s.WellFormed) (name : String) :
    (s.function? name).isSome = s.functions.contains name := by
  rw [function?, Option.isSome_map, hs.functions.isSome_find?]

theorem WellFormed.function?_eq_some_iff {s : Session α} (hs : s.WellFormed) {name : String}
    {function : Function α} :
    s.function? name = some function ↔ ⟨name, function⟩ ∈ s.functions.toList := by
  rw [function?, Option.map_eq_some_iff, Registry.toList, List.mem_iff_getElem?]
  simp only [hs.functions.find?_eq_some_iff, Array.getElem?_toList, Registry.get?]
  constructor
  · intro h
    obtain ⟨⟨_, _⟩, ⟨rfl, hentry⟩, rfl⟩ := h
    exact hentry
  · intro hentry
    exact ⟨_, ⟨rfl, hentry⟩, rfl⟩

theorem WellFormed.function?_eq_none_iff {s : Session α} (hs : s.WellFormed) {name : String} :
    s.function? name = none ↔ ∀ entry ∈ s.functions.toList, entry.name ≠ name := by
  rw [Option.eq_none_iff_forall_ne_some]
  constructor
  · rintro hnone ⟨_, function⟩ hentry rfl
    exact hnone function (hs.function?_eq_some_iff.mpr hentry)
  · intro hnone function hfunction
    exact hnone _ (hs.function?_eq_some_iff.mp hfunction) rfl

theorem WellFormed.accepts {s : Session α} (hs : s.WellFormed) {entry : Entry α}
    (hentry : entry ∈ s.functions.toList) : entry.function.signature.alternatives ≠ [] := by
  obtain ⟨id, hid⟩ := List.mem_iff_getElem?.mp hentry
  rw [Registry.toList, Array.getElem?_toList] at hid
  have haccepts := hs.functions.accepts id entry hid
  intro hnone
  rw [Signature.isEmpty, hnone] at haccepts
  cases haccepts

/-- An identifier is not a vector and a scalar at once. -/
theorem WellFormed.not_both {s : Session α} (hs : s.WellFormed) {name : String}
    (hvector : s.vectors.contains name = true) : s.scalars.contains name = false := by
  cases hscalar : s.scalars.contains name with
  | false => rfl
  | true =>
      have hroles := hs.oneRole name
      rw [roles, hvector, hscalar, List.count_cons_self, List.count_cons_self] at hroles
      omega

/-- A name is bound if and only if exactly one of the three ways to look it up finds something. -/
theorem WellFormed.bound_iff_count {s : Session α} (hs : s.WellFormed) (name : String) :
    s.bound name = true ↔
      [(s.vector? name).isSome, (s.scalar? name).isSome, (s.function? name).isSome].count true
        = 1 := by
  rw [hs.isSome_vector?, hs.isSome_scalar?, hs.isSome_function?, bound_eq_any_roles]
  have hone := hs.oneRole name
  have hany : (s.roles name).any id = true ↔ 0 < (s.roles name).count true := by
    rw [List.count_pos_iff, List.any_eq_true]
    simp
  rw [hany]
  change _ ↔ (s.roles name).count true = 1
  omega

/-! ### Bindings that stay -/

/-- Every binding of `s` is also one of `s'`, to the same cell or the same function. -/
structure Extends (s s' : Session α) : Prop where
  vectors : ∀ (name : String) cell, s.vectors[name]? = some cell → s'.vectors[name]? = some cell
  scalars : ∀ (name : String) cell, s.scalars[name]? = some cell → s'.scalars[name]? = some cell
  ids : ∀ name id, s.functions.idOf? name = some id → s'.functions.idOf? name = some id
  entries : ∀ id entry, s.functions.get? id = some entry → s'.functions.get? id = some entry

theorem Extends.refl (s : Session α) : s.Extends s :=
  ⟨fun _ _ h => h, fun _ _ h => h, fun _ _ h => h, fun _ _ h => h⟩

theorem Extends.trans {s₁ s₂ s₃ : Session α} (h₁₂ : s₁.Extends s₂) (h₂₃ : s₂.Extends s₃) :
    s₁.Extends s₃ where
  vectors name cell h := h₂₃.vectors name cell (h₁₂.vectors name cell h)
  scalars name cell h := h₂₃.scalars name cell (h₁₂.scalars name cell h)
  ids name id h := h₂₃.ids name id (h₁₂.ids name id h)
  entries id entry h := h₂₃.entries id entry (h₁₂.entries id entry h)

/-- A new name hides no old one. -/
theorem getElem?_insert_of_fresh {β : Type} {m : Std.HashMap String β} {name other : String}
    {old value : β} (hfresh : m.contains name = false) (hold : m[other]? = some old) :
    (m.insert name value)[other]? = some old := by
  have hne : name ≠ other := by
    rintro rfl
    rw [Std.HashMap.contains_eq_isSome_getElem?, hold] at hfresh
    cases hfresh
  rw [Std.HashMap.getElem?_insert, if_neg (by simpa using hne), hold]

/-- A change gives up no binding. -/
theorem Extends.of_change {s s' : Session α} (hchange : s.Change s') : s.Extends s' := by
  cases hchange with
  | vector name cell store hname hstore hcell =>
      have hfresh := (List.cons.inj (roles_of_fresh hname)).1
      exact { Extends.refl s with vectors := fun _ _ => getElem?_insert_of_fresh hfresh }
  | scalar name cell store hname hstore hcell =>
      have hfresh := (List.cons.inj (List.cons.inj (roles_of_fresh hname)).2).1
      exact { Extends.refl s with scalars := fun _ _ => getElem?_insert_of_fresh hfresh }
  | function name function hname =>
      obtain ⟨_, hregistry⟩ := (s.functionRefusal?_eq_none_iff name function).mp hname
      have hfresh := ((s.functions.refusal?_eq_none_iff name function).mp hregistry).1
      refine { Extends.refl s with ids := ?_, entries := ?_ }
      · intro other id
        exact getElem?_insert_of_fresh hfresh
      · intro id entry hentry
        rw [pushFunction, Registry.get?_push, if_neg]
        · exact hentry
        · rintro rfl
          rw [Registry.get?_size] at hentry
          cases hentry
  | stores vectorStore scalarStore hvectors hscalars =>
      exact ⟨fun _ _ h => h, fun _ _ h => h, fun _ _ h => h, fun _ _ h => h⟩

theorem Extends.function? {s s' : Session α} (hs : s.Extends s') {name : String}
    {function : Function α} (hfunction : s.function? name = some function) :
    s'.function? name = some function := by
  simp only [Session.function?, Registry.find?, Option.map_eq_some_iff,
    Option.bind_eq_some_iff] at hfunction ⊢
  obtain ⟨entry, ⟨id, hid, hentry⟩, rfl⟩ := hfunction
  exact ⟨entry, ⟨id, hs.ids name id hid, hs.entries id entry hentry⟩, rfl⟩

theorem function?_pushFunction (s : Session α) (name : String) (function : Function α) :
    (s.pushFunction name function).function? name = some function := by
  rw [function?, Registry.find?, pushFunction, Registry.idOf?_push, if_pos rfl, Option.bind_some,
    Registry.get?_push, if_pos rfl]
  rfl

/-! ### Lookups beside one more name -/

section Lookups

variable {s : Session α}

/-- Nothing is looked up under a new name. -/
theorem WellFormed.lookups_of_fresh (hs : s.WellFormed) {name : String}
    (hname : s.nameRefusal? name = none) :
    s.vector? name = none ∧ s.scalar? name = none ∧ s.function? name = none := by
  obtain ⟨hvector, hscalar, hfunction⟩ : s.vectors.contains name = false ∧
      s.scalars.contains name = false ∧ s.functions.contains name = false := by
    simpa [roles] using roles_of_fresh hname
  rw [← hs.isSome_vector?] at hvector
  rw [← hs.isSome_scalar?] at hscalar
  rw [← hs.isSome_function?] at hfunction
  simpa using And.intro hvector (And.intro hscalar hfunction)

theorem WellFormed.function?_pushFunction_of_ne (hs : s.WellFormed) {name other : String}
    {function : Function α} (hname : s.functionRefusal? name function = none)
    (hne : other ≠ name) :
    (s.pushFunction name function).function? other = s.function? other := by
  have hs' := hs.of_change (.function name function hname)
  refine Option.ext fun found => ?_
  rw [hs'.function?_eq_some_iff, hs.function?_eq_some_iff]
  simp [pushFunction, Registry.push, Registry.toList, hne]

/-- A new cell changes no value that was there. -/
theorem WellFormed.vector?_insert_create (hs : s.WellFormed) (name other : String)
    (values : List α) :
    (vector? { s with
      vectors := s.vectors.insert name s.vectorStore.next
      vectorStore := s.vectorStore.create values } other) =
      if name = other then some values else s.vector? other := by
  simp only [vector?, Std.HashMap.getElem?_insert, beq_iff_eq]
  split
  · rw [Option.bind_some, Store.read?_create, if_pos rfl]
  · cases hcell : s.vectors[other]? with
    | none => rfl
    | some cell => exact Store.read?_create_of_created (hs.vectorCell other cell hcell) values

theorem WellFormed.scalar?_insert_create (hs : s.WellFormed) (name other : String) (value : α) :
    (scalar? { s with
      scalars := s.scalars.insert name s.scalarStore.next
      scalarStore := s.scalarStore.create value } other) =
      if name = other then some value else s.scalar? other := by
  simp only [scalar?, Std.HashMap.getElem?_insert, beq_iff_eq]
  split
  · rw [Option.bind_some, Store.read?_create, if_pos rfl]
  · cases hcell : s.scalars[other]? with
    | none => rfl
    | some cell => exact Store.read?_create_of_created (hs.scalarCell other cell hcell) value

end Lookups

/-! ### What an operation that succeeds does -/

section Accepted

variable {β γ : Type} {refusal? : Option SessionError}

theorem accepted_iff {result value : β} :
    (match refusal? with
      | some error => Except.error error
      | none => .ok result) = .ok value ↔ refusal? = none ∧ value = result := by
  cases refusal? <;> simp [eq_comm]

/-- The cell of a new value is returned with the session that has it. -/
theorem accepted_with_cell_iff (after : γ → β) {next cell : γ} {value : β} :
    (match refusal? with
      | some error => Except.error error
      | none => .ok (next, after next)) = .ok (cell, value) ↔
      refusal? = none ∧ cell = next ∧ value = after cell := by
  rw [accepted_iff, Prod.mk.injEq]
  refine and_congr_right fun _ => and_congr_right ?_
  rintro rfl
  rfl

end Accepted

theorem addSharedVector_eq_ok_iff {s s' : Session α} {name : String} {cell : Cell (List α)} :
    s.addSharedVector name cell = .ok s' ↔
      s.nameRefusal? name = none ∧ s' = { s with vectors := s.vectors.insert name cell } :=
  accepted_iff

theorem addVector_eq_ok_iff {s s' : Session α} {name : String} {values : List α}
    {cell : Cell (List α)} :
    s.addVector name values = .ok (cell, s') ↔
      s.nameRefusal? name = none ∧ cell = s.vectorStore.next ∧
        s' = { s with
          vectors := s.vectors.insert name cell
          vectorStore := s.vectorStore.create values } := by
  unfold addVector
  exact accepted_with_cell_iff fun cell => { s with
    vectors := s.vectors.insert name cell
    vectorStore := s.vectorStore.create values }

theorem addScalar_eq_ok_iff {s s' : Session α} {name : String} {value : α} {cell : Cell α} :
    s.addScalar name value = .ok (cell, s') ↔
      s.nameRefusal? name = none ∧ cell = s.scalarStore.next ∧
        s' = { s with
          scalars := s.scalars.insert name cell
          scalarStore := s.scalarStore.create value } := by
  unfold addScalar
  exact accepted_with_cell_iff fun cell => { s with
    scalars := s.scalars.insert name cell
    scalarStore := s.scalarStore.create value }

theorem addFunction_eq_ok_iff {s s' : Session α} {name : String} {function : Function α} :
    s.addFunction name function = .ok s' ↔
      s.functionRefusal? name function = none ∧ s' = s.pushFunction name function :=
  accepted_iff

theorem addBuilt_eq_ok_iff {s s' : Session α} {name : String}
    {built : Except PatternError (Function α)} :
    s.addBuilt name built = .ok s' ↔
      ∃ function, built = .ok function ∧ s.functionRefusal? name function = none ∧
        s' = s.pushFunction name function := by
  cases built with
  | error defect => simp [addBuilt]
  | ok function => simp [addBuilt, addFunction_eq_ok_iff]

theorem change_of_addBuilt {s s' : Session α} {name : String}
    {built : Except PatternError (Function α)} (h : s.addBuilt name built = .ok s') :
    s.Change s' := by
  obtain ⟨function, _, hname, rfl⟩ := addBuilt_eq_ok_iff.mp h
  exact .function name function hname

end Session

end PNorm
