/-!
# Shared storage

Values that the host of a session keeps changing live in cells.  A cell is
created once and never given up; whoever knows it, a name of the session or a
handle of the host, reads what was last written to it through any of them.
-/

namespace PNorm

/-- The address of a cell that holds a value of type `β`. -/
structure Cell (β : Type) where
  index : Nat
  deriving Repr

instance {β : Type} : DecidableEq (Cell β)
  | ⟨i⟩, ⟨j⟩ => decidable_of_iff (i = j) (by simp)

/-- The contents of all cells. -/
structure Store (β : Type) where
  contents : Array β
  deriving Repr

namespace Store

variable {β : Type}

def empty : Store β := ⟨#[]⟩

/-- The value in a cell, if the cell was created. -/
def read? (s : Store β) (cell : Cell β) : Option β := s.contents[cell.index]?

/-- The cell that the next `create` makes. -/
def next (s : Store β) : Cell β := ⟨s.contents.size⟩

/-- Create the cell `next` with a value in it. -/
def create (s : Store β) (value : β) : Store β := ⟨s.contents.push value⟩

/-- Replace the value in a cell.  A cell that was not created stays so. -/
def write (s : Store β) (cell : Cell β) (value : β) : Store β :=
  ⟨s.contents.setIfInBounds cell.index value⟩

/-! ## What is read after a change -/

@[simp] theorem read?_empty (cell : Cell β) : (empty : Store β).read? cell = none := by
  simp [read?, empty]

theorem read?_create (s : Store β) (value : β) (cell : Cell β) :
    (s.create value).read? cell = if cell = s.next then some value else s.read? cell := by
  cases cell with
  | mk index => simp [read?, create, next, Array.getElem?_push]

theorem read?_write (s : Store β) (cell other : Cell β) (value : β) :
    (s.write cell value).read? other =
      if other = cell then (s.read? cell).map fun _ => value else s.read? other := by
  cases cell with
  | mk i =>
      cases other with
      | mk j =>
          by_cases hij : j = i
          · subst hij
            by_cases hlt : j < s.contents.size <;> simp [read?, write, hlt]
          · simp [read?, write, hij, Array.getElem?_setIfInBounds_ne (Ne.symm hij)]

end Store

end PNorm
