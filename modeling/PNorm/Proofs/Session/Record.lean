import PNorm.Proofs.Session.Registry
import PNorm.Session.Moves

/-!
# What has happened to the cells

A store forgets: it has the values of now, and nothing of where they came from.
A `Record` forgets nothing.  It lists what has happened to the cells of one type,
the latest first, and every question about the present is answered from it:

* the value of a cell is what was written to it last (`lastWritten?`),
* the cell of a handle is what the handle was given last, unless it was dropped
  since (`heldBy?`),
* the cell of a name is what the name was given *first* (`denoted?`).

`Reflects` says that tables and record give the same answers.  One event keeps
them together (`Reflects.apply`), provided that the tables allow it: new cells
have new addresses, nothing is written to or known by a cell that is not there,
and no name is given twice.
-/

namespace PNorm

namespace Store

variable {β : Type}

theorem next_create (s : Store β) (value : β) : (s.create value).next = ⟨s.next.index + 1⟩ := by
  show (⟨(s.contents.push value).size⟩ : Cell β) = ⟨s.contents.size + 1⟩
  rw [Array.size_push]

theorem next_write (s : Store β) (cell : Cell β) (value : β) :
    (s.write cell value).next = s.next := by
  show (⟨(s.contents.setIfInBounds cell.index value).size⟩ : Cell β) = ⟨s.contents.size⟩
  rw [Array.size_setIfInBounds]

end Store

/-- What can happen to the cells of one type. -/
inductive Event (β : Type) where
  | created (cell : Cell β) (value : β)
  | wrote (cell : Cell β) (value : β)
  | named (name : String) (cell : Cell β)
  | held (handle : String) (cell : Cell β)
  | dropped (handle : String)

/-- What has happened, the latest first. -/
abbrev Record (β : Type) := List (Event β)

namespace Record

variable {β : Type}

/-! ## The present, told from the past -/

/-- The value that was written last to a cell, through whatever alias. -/
def lastWritten? : Record β → Cell β → Option β
  | [], _ => none
  | .created other value :: past, cell | .wrote other value :: past, cell =>
      if cell = other then some value else lastWritten? past cell
  | .named .. :: past, cell | .held .. :: past, cell | .dropped _ :: past, cell =>
      lastWritten? past cell

/-- The cell that a handle was given last, if the handle was not dropped since. -/
def heldBy? : Record β → String → Option (Cell β)
  | [], _ => none
  | .held other cell :: past, handle => if other = handle then some cell else heldBy? past handle
  | .dropped other :: past, handle => if other = handle then none else heldBy? past handle
  | .created .. :: past, handle | .wrote .. :: past, handle | .named .. :: past, handle =>
      heldBy? past handle

/-- The cell that a name was given first. -/
def denoted? : Record β → String → Option (Cell β)
  | [], _ => none
  | .named other cell :: past, name =>
      (denoted? past name).or (if other = name then some cell else none)
  | .created .. :: past, name | .wrote .. :: past, name | .held .. :: past, name
  | .dropped _ :: past, name => denoted? past name

/-- How many cells were created. -/
def size : Record β → Nat
  | [] => 0
  | .created .. :: past => size past + 1
  | .wrote .. :: past | .named .. :: past | .held .. :: past | .dropped _ :: past => size past

/-- The cell that an alias stands for. -/
def cell? (past : Record β) : Alias → Option (Cell β)
  | .name name => denoted? past name
  | .handle handle => heldBy? past handle

/-- The value that was written last to the cell of an alias. -/
def read? (past : Record β) (via : Alias) : Option β :=
  (past.cell? via).bind past.lastWritten?

/-! ## The past, continued -/

/-- Something happens to the cell of an alias, if the alias stands for one. -/
def mention (past : Record β) (via : Alias) (event : Cell β → Event β) : Record β :=
  match past.cell? via with
  | none => past
  | some cell => event cell :: past

theorem mention_of_none {past : Record β} {via : Alias} (hcell : past.cell? via = none)
    (event : Cell β → Event β) : past.mention via event = past := by
  rw [mention, hcell]

theorem mention_of_some {past : Record β} {via : Alias} {cell : Cell β}
    (hcell : past.cell? via = some cell) (event : Cell β → Event β) :
    past.mention via event = event cell :: past := by
  rw [mention, hcell]

theorem suffix_mention (past : Record β) (via : Alias) (event : Cell β → Event β) :
    past <:+ past.mention via event := by
  cases hcell : past.cell? via with
  | none => exact ⟨[], (mention_of_none hcell event).symm⟩
  | some cell => exact ⟨[event cell], (mention_of_some hcell event).symm⟩

/-- A new cell is made and kept under a handle. -/
def make (past : Record β) (handle : String) (value : β) : Record β :=
  .held handle ⟨past.size⟩ :: .created ⟨past.size⟩ value :: past

/-- A new cell is made, bound to a name, and kept under a handle of the same name. -/
def bind (past : Record β) (name : String) (value : β) : Record β :=
  .held name ⟨past.size⟩ :: .named name ⟨past.size⟩ :: .created ⟨past.size⟩ value :: past

/-! ## Nothing is taken back -/

/-- Whatever happens later, a name stands for the cell that it was given first. -/
theorem denoted?_append {past : Record β} {name : String} {cell : Cell β}
    (hname : past.denoted? name = some cell) (later : Record β) :
    denoted? (later ++ past) name = some cell := by
  induction later with
  | nil => exact hname
  | cons event later ih =>
      cases event with
      | named other found =>
          show (denoted? (later ++ past) name).or _ = some cell
          rw [ih, Option.some_or]
      | created | wrote | held | dropped => exact ih

/-- The name stays with the cell that both were given at first.  The handle has moved on. -/
example :
    let past := (bind [] "x" 1).make "x" 2
    past.read? (.name "x") = some 1 ∧ past.read? (.handle "x") = some 2 := by decide

end Record

namespace Tables

variable {β : Type}

/-- The tables after an event. -/
def apply (t : Tables β) : Event β → Tables β
  | .created _ value => { t with store := t.store.create value }
  | .wrote cell value => { t with store := t.store.write cell value }
  | .named name cell => { t with names := t.names.insert name cell }
  | .held handle cell => { t with handles := t.handles.insert handle cell }
  | .dropped handle => { t with handles := t.handles.erase handle }

/-- What may happen next. -/
def Allows (t : Tables β) : Event β → Prop
  | .created cell _ => cell = t.store.next
  | .wrote cell _ | .held _ cell => t.store.Created cell
  | .named name cell => t.names[name]? = none ∧ t.store.Created cell
  | .dropped _ => True

/-- A value was written to a cell: whoever knows the cell reads it, and no one else notices. -/
structure Wrote (t : Tables β) (cell : Cell β) (value : β) (t' : Tables β) : Prop where
  cells : ∀ via, t'.cell? via = t.cell? via
  seen : ∀ via, t.cell? via = some cell → t'.read? via = some value
  unseen : ∀ via, t.cell? via ≠ some cell → t'.read? via = t.read? via
  kept : ∀ other, other ≠ cell → t'.store.read? other = t.store.read? other

/-- No one who knows a cell notices anything.  There may be cells that no one knows. -/
structure Unnoticed (t t' : Tables β) : Prop where
  cells : ∀ via, t'.cell? via = t.cell? via
  reads : ∀ via, t'.read? via = t.read? via
  kept : ∀ cell, t.store.Created cell → t'.store.read? cell = t.store.read? cell

theorem wrote_apply {t : Tables β} {cell : Cell β} (hcell : t.store.Created cell) (value : β) :
    t.Wrote cell value (t.apply (.wrote cell value)) := by
  obtain ⟨old, hold⟩ := Option.isSome_iff_exists.mp hcell
  have hcells : ∀ via, (t.apply (.wrote cell value)).cell? via = t.cell? via := by
    intro via
    cases via <;> rfl
  have hkept : ∀ other, other ≠ cell →
      (t.apply (.wrote cell value)).store.read? other = t.store.read? other := by
    intro other hother
    show (t.store.write cell value).read? other = t.store.read? other
    rw [Store.read?_write, if_neg hother]
  refine ⟨hcells, ?_, ?_, hkept⟩
  · intro via hvia
    rw [read?, hcells, hvia]
    show (t.store.write cell value).read? cell = some value
    rw [Store.read?_write, if_pos rfl, hold, Option.map_some]
  · intro via hvia
    rw [read?, read?, hcells]
    cases hother : t.cell? via with
    | none => rfl
    | some other =>
        have hne : other ≠ cell := by
          rintro rfl
          exact hvia hother
        exact hkept other hne

/-- Something happens to the cell of an alias, if the alias stands for one. -/
def mention (t : Tables β) (via : Alias) (event : Cell β → Event β) : Tables β :=
  match t.cell? via with
  | none => t
  | some cell => t.apply (event cell)

theorem mention_of_some {t : Tables β} {via : Alias} {cell : Cell β}
    (hcell : t.cell? via = some cell) (event : Cell β → Event β) :
    t.mention via event = t.apply (event cell) := by
  rw [mention, hcell]

end Tables

/-- Tables and record tell the same. -/
structure Reflects {β : Type} (past : Record β) (t : Tables β) : Prop where
  cells : ∀ via, t.cell? via = past.cell? via
  values : ∀ cell, t.store.read? cell = past.lastWritten? cell
  next : t.store.next = ⟨past.size⟩
  /-- What an alias stands for can be read. -/
  live : ∀ via cell, t.cell? via = some cell → t.store.Created cell

namespace Reflects

variable {β : Type} {past : Record β} {t : Tables β}

theorem empty : Reflects ([] : Record β) ⟨∅, ∅, .empty⟩ := by
  have hcells : ∀ via, (⟨∅, ∅, .empty⟩ : Tables β).cell? via = none := by
    intro via
    cases via with
    | name name => exact Std.HashMap.getElem?_empty
    | handle handle => exact Std.HashMap.getElem?_empty
  refine ⟨?_, Store.read?_empty, rfl, ?_⟩
  · intro via
    rw [hcells]
    cases via <;> rfl
  · intro via cell hcell
    rw [hcells] at hcell
    cases hcell

theorem read? (h : Reflects past t) (via : Alias) : t.read? via = past.read? via := by
  rw [Tables.read?, Record.read?, h.cells]
  cases past.cell? via with
  | none => rfl
  | some cell => exact h.values cell

/-- What happens to other cells only is not noticed. -/
theorem unnoticed (h : Reflects past t) {t' : Tables β} (hcells : ∀ via, t'.cell? via = t.cell? via)
    (hkept : ∀ cell, t.store.Created cell → t'.store.read? cell = t.store.read? cell) :
    t.Unnoticed t' := by
  refine ⟨hcells, ?_, hkept⟩
  intro via
  rw [Tables.read?, Tables.read?, hcells]
  cases hcell : t.cell? via with
  | none => rfl
  | some cell => exact hkept cell (h.live via cell hcell)

/-! ## One event

The four facts are about what aliases stand for, what cells hold, which cell comes next, and which
cells are there.  Each event touches one or two of them. -/

theorem created (h : Reflects past t) {cell : Cell β} {value : β} (hcell : cell = t.store.next) :
    Reflects (.created cell value :: past) (t.apply (.created cell value)) where
  cells := by
    intro via
    cases via with
    | name name => exact h.cells (.name name)
    | handle handle => exact h.cells (.handle handle)
  values := by
    intro other
    show (t.store.create value).read? other = _
    rw [Store.read?_create, Record.lastWritten?, h.values, hcell]
  next := by
    show (t.store.create value).next = _
    rw [Store.next_create, h.next, Record.size]
  live := by
    intro via other hother
    exact Store.keeps_create _ _ _ (h.live via other hother)

theorem wrote (h : Reflects past t) {cell : Cell β} {value : β} (hcell : t.store.Created cell) :
    Reflects (.wrote cell value :: past) (t.apply (.wrote cell value)) where
  cells := by
    intro via
    cases via with
    | name name => exact h.cells (.name name)
    | handle handle => exact h.cells (.handle handle)
  values := by
    intro other
    show (t.store.write cell value).read? other = _
    obtain ⟨old, hold⟩ := Option.isSome_iff_exists.mp hcell
    rw [Store.read?_write, Record.lastWritten?, h.values other, hold, Option.map_some]
  next := by
    show (t.store.write cell value).next = _
    rw [Store.next_write, h.next, Record.size]
  live := by
    intro via other hother
    exact Store.keeps_write _ _ _ _ (h.live via other hother)

/-- A table of created cells stays one. -/
theorem created_of_insert {store : Store β} {table : Std.HashMap String (Cell β)}
    (htable : ∀ (key : String) cell, table[key]? = some cell → store.Created cell)
    {key found : String} {cell other : Cell β} (hcell : store.Created cell)
    (hother : (table.insert key cell)[found]? = some other) : store.Created other := by
  rw [Std.HashMap.getElem?_insert] at hother
  split at hother
  · cases hother
    exact hcell
  · exact htable found other hother

/-- A name without a cell gets one.  The older a naming the more it counts, but there is none. -/
theorem named (h : Reflects past t) {name : String} {cell : Cell β}
    (hname : t.names[name]? = none) (hcell : t.store.Created cell) :
    Reflects (.named name cell :: past) (t.apply (.named name cell)) where
  cells := by
    intro via
    cases via with
    | name other =>
        have hother : t.names[other]? = past.denoted? other := h.cells (.name other)
        show (t.names.insert name cell)[other]? = Record.denoted? (.named name cell :: past) other
        rw [Std.HashMap.getElem?_insert, Record.denoted?, ← hother]
        by_cases heq : name = other
        · subst heq
          simp [hname]
        · simp [heq]
    | handle handle => exact h.cells (.handle handle)
  values := h.values
  next := h.next
  live := by
    intro via other hother
    cases via with
    | name found => exact created_of_insert (fun found => h.live (.name found)) hcell hother
    | handle handle => exact h.live (.handle handle) other hother

theorem held (h : Reflects past t) {handle : String} {cell : Cell β}
    (hcell : t.store.Created cell) :
    Reflects (.held handle cell :: past) (t.apply (.held handle cell)) where
  cells := by
    intro via
    cases via with
    | name name => exact h.cells (.name name)
    | handle other =>
        have hother : t.handles[other]? = past.heldBy? other := h.cells (.handle other)
        show (t.handles.insert handle cell)[other]? =
          Record.heldBy? (.held handle cell :: past) other
        rw [Std.HashMap.getElem?_insert, Record.heldBy?, ← hother]
        simp
  values := h.values
  next := h.next
  live := by
    intro via other hother
    cases via with
    | name name => exact h.live (.name name) other hother
    | handle found => exact created_of_insert (fun found => h.live (.handle found)) hcell hother

theorem dropped (h : Reflects past t) (handle : String) :
    Reflects (.dropped handle :: past) (t.apply (.dropped handle)) where
  cells := by
    intro via
    cases via with
    | name name => exact h.cells (.name name)
    | handle other =>
        have hother : t.handles[other]? = past.heldBy? other := h.cells (.handle other)
        show (t.handles.erase handle)[other]? = Record.heldBy? (.dropped handle :: past) other
        rw [Std.HashMap.getElem?_erase, Record.heldBy?, ← hother]
        simp
  values := h.values
  next := h.next
  live := by
    intro via other hother
    cases via with
    | name name => exact h.live (.name name) other hother
    | handle found =>
        replace hother : (t.handles.erase handle)[found]? = some other := hother
        rw [Std.HashMap.getElem?_erase] at hother
        split at hother
        · cases hother
        · exact h.live (.handle found) other hother

/-- What the tables allow, tables and record go through together. -/
theorem apply (h : Reflects past t) {event : Event β} (hallows : t.Allows event) :
    Reflects (event :: past) (t.apply event) := by
  cases event with
  | created cell value => exact h.created hallows
  | wrote cell value => exact h.wrote hallows
  | named name cell => exact h.named hallows.1 hallows.2
  | held handle cell => exact h.held hallows
  | dropped handle => exact h.dropped handle

/-! ## Several events -/

theorem mention (h : Reflects past t) {via : Alias} {event : Cell β → Event β}
    (hallows : ∀ cell, t.store.Created cell → t.Allows (event cell)) :
    Reflects (past.mention via event) (t.mention via event) := by
  unfold Record.mention Tables.mention
  rw [← h.cells]
  cases hcell : t.cell? via with
  | none => exact h
  | some cell => exact h.apply (hallows cell (h.live via cell hcell))

/-- A write through an alias is seen by the aliases of its cell. -/
theorem wrote_mention (h : Reflects past t) {via : Alias} {cell : Cell β}
    (hcell : t.cell? via = some cell) (value : β) :
    t.Wrote cell value (t.mention via (.wrote · value)) := by
  rw [Tables.mention_of_some hcell]
  exact Tables.wrote_apply (h.live via cell hcell) value

/-- A new cell gets the next address. -/
theorem make (h : Reflects past t) (handle : String) (value : β) :
    Reflects (past.make handle value)
      ((t.apply (.created t.store.next value)).apply (.held handle t.store.next)) := by
  unfold Record.make
  rw [← h.next]
  exact (h.created rfl).held (Store.created_next _ _)

theorem bind (h : Reflects past t) {name : String} (hname : t.names[name]? = none) (value : β) :
    Reflects (past.bind name value)
      (((t.apply (.created t.store.next value)).apply (.named name t.store.next)).apply
        (.held name t.store.next)) := by
  unfold Record.bind
  rw [← h.next]
  have hcell : (t.store.create value).Created t.store.next := Store.created_next _ _
  exact ((h.created rfl).named hname hcell).held hcell

end Reflects

end PNorm
