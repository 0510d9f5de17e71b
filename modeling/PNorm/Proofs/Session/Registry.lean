import PNorm.Session.Registry
import PNorm.Session.Store

/-!
# Cells and entries that stay

The two parts of a session that only grow.  A store never gives up a cell, and a
registry never gives up an entry.

A registry keeps its functions twice, in the order of their registration and
under their names.  `Registry.Coherent` says that the two agree, which is what
makes a number stand for a name and back: the index finds an entry if and only
if the entry is there and carries that name.  Registering keeps this because it
refuses names in use.

Nothing here knows of sessions.  A session is more than its parts only by the
refusal of names in use across them, and that is the subject of
`PNorm.Proofs.Session.Invariant`.  What it takes from this file is how the parts
grow: `Store.keeps_create` and `Store.keeps_write` for the stores, and
`Registry.Coherent.push` for the functions.
-/

namespace PNorm

/-! ## Stores -/

namespace Store

variable {β : Type}

/-- The cell was created. -/
def Created (s : Store β) (cell : Cell β) : Prop :=
  (s.read? cell).isSome

/-- No cell of `s` is given up in `s'`. -/
def Keeps (s s' : Store β) : Prop :=
  ∀ cell, s.Created cell → s'.Created cell

theorem Keeps.refl (s : Store β) : s.Keeps s :=
  fun _ hcell => hcell

theorem keeps_create (s : Store β) (value : β) : s.Keeps (s.create value) := by
  intro cell hcell
  unfold Created at hcell ⊢
  rw [read?_create]
  split
  · rfl
  · exact hcell

theorem created_next (s : Store β) (value : β) : (s.create value).Created s.next := by
  unfold Created
  rw [read?_create, if_pos rfl]
  rfl

/-- A new cell is none of the old ones. -/
theorem read?_create_of_created {s : Store β} {cell : Cell β} (hcell : s.Created cell) (value : β) :
    (s.create value).read? cell = s.read? cell := by
  rw [read?_create, if_neg]
  rintro rfl
  simp [Created, read?, next] at hcell

theorem keeps_write (s : Store β) (cell : Cell β) (value : β) : s.Keeps (s.write cell value) := by
  intro other hother
  unfold Created at hother ⊢
  rw [read?_write]
  by_cases hsame : other = cell
  · subst hsame
    -- What is written to was there, and is there with the new value.
    simpa using hother
  · rwa [if_neg hsame]

end Store

/-! ## Registries -/

namespace Registry

variable {α : Type}

/-- The index of a registry finds exactly its entries, the registry is not too large, and every
function in it accepts something. -/
structure Coherent (r : Registry α) : Prop where
  idOf?_eq_some_iff : ∀ name id,
    r.idOf? name = some id ↔ ∃ entry, r.get? id = some entry ∧ entry.name = name
  size_le : r.size ≤ maxFunctions
  accepts : ∀ id entry, r.get? id = some entry → entry.function.signature.isEmpty = false

theorem contains_eq_isSome_idOf? (r : Registry α) (name : String) :
    r.contains name = (r.idOf? name).isSome :=
  Std.HashMap.contains_eq_isSome_getElem?

theorem idOf?_push (r : Registry α) (name other : String) (function : Function α) :
    (r.push name function).idOf? other = if name = other then some r.size else r.idOf? other := by
  simp only [idOf?, push, Std.HashMap.getElem?_insert, beq_iff_eq]
  rfl

theorem get?_push (r : Registry α) (name : String) (function : Function α) (id : Nat) :
    (r.push name function).get? id = if id = r.size then some ⟨name, function⟩ else r.get? id := by
  simp only [get?, push, Array.getElem?_push]
  rfl

theorem get?_size (r : Registry α) : r.get? r.size = none := by
  simp [get?, size]

theorem refusal?_eq_none_iff (r : Registry α) (name : String) (function : Function α) :
    r.refusal? name function = none ↔
      r.contains name = false ∧ function.signature.isEmpty = false ∧ r.size < maxFunctions := by
  unfold refusal?
  split
  · simp_all
  · split
    · simp_all
    · split
      · simp_all
      · simp_all

theorem coherent_empty : (empty : Registry α).Coherent where
  idOf?_eq_some_iff := by
    intro name id
    simp [idOf?, get?, empty]
  size_le := by simp [size, empty, maxFunctions]
  accepts := by
    intro id entry hentry
    simp [get?, empty] at hentry

/-- A function that is not refused keeps the registry coherent. -/
theorem Coherent.push {r : Registry α} (hr : r.Coherent) {name : String} {function : Function α}
    (hfree : r.refusal? name function = none) : (r.push name function).Coherent := by
  obtain ⟨hnew, haccepts, hsize⟩ := (r.refusal?_eq_none_iff name function).mp hfree
  rw [contains_eq_isSome_idOf?] at hnew
  refine ⟨?_, ?_, ?_⟩
  · intro other id
    rw [idOf?_push, get?_push]
    by_cases hname : name = other
    · -- The new name: no older entry carries it, so that the new one is its only entry.
      subst hname
      rw [if_pos rfl]
      constructor
      · intro hid
        cases hid
        exact ⟨⟨name, function⟩, if_pos rfl, rfl⟩
      · intro h
        obtain ⟨entry, hentry, hentryName⟩ := h
        by_cases hid : id = r.size
        · rw [hid]
        · rw [if_neg hid] at hentry
          have hold := (hr.idOf?_eq_some_iff name id).mpr ⟨entry, hentry, hentryName⟩
          rw [hold] at hnew
          cases hnew
    · -- Any other name: its entry is an old one, at its old place.
      rw [if_neg hname, hr.idOf?_eq_some_iff]
      by_cases hid : id = r.size
      · subst hid
        rw [if_pos rfl, get?_size]
        constructor
        · intro h
          obtain ⟨entry, hentry, _⟩ := h
          cases hentry
        · intro h
          obtain ⟨entry, hentry, hentryName⟩ := h
          cases hentry
          exact absurd hentryName hname
      · rw [if_neg hid]
  · rw [size_push]
    exact hsize
  · intro id entry hentry
    rw [get?_push] at hentry
    split at hentry
    · cases hentry
      exact haccepts
    · exact hr.accepts id entry hentry

/-- In a coherent registry a name that has a number has an entry. -/
theorem Coherent.find?_eq_some_iff {r : Registry α} (hr : r.Coherent) (name : String)
    (entry : Entry α) :
    r.find? name = some entry ↔ entry.name = name ∧ ∃ id, r.get? id = some entry := by
  unfold find?
  rw [Option.bind_eq_some_iff]
  constructor
  · intro h
    obtain ⟨id, hid, hentry⟩ := h
    obtain ⟨found, hfound, hname⟩ := (hr.idOf?_eq_some_iff name id).mp hid
    rw [hentry] at hfound
    cases hfound
    exact ⟨hname, id, hentry⟩
  · intro h
    obtain ⟨hname, id, hentry⟩ := h
    exact ⟨id, (hr.idOf?_eq_some_iff name id).mpr ⟨entry, hentry, hname⟩, hentry⟩

theorem Coherent.isSome_find? {r : Registry α} (hr : r.Coherent) (name : String) :
    (r.find? name).isSome = r.contains name := by
  rw [contains_eq_isSome_idOf?]
  unfold find?
  cases hid : r.idOf? name with
  | none => rfl
  | some id =>
      obtain ⟨entry, hentry, _⟩ := (hr.idOf?_eq_some_iff name id).mp hid
      rw [Option.bind_some, hentry]
      rfl

end Registry

end PNorm
