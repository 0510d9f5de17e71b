import PNorm.Session.Evaluate
import PNorm.Session.Host

/-!
# The moves of a host

`Action` lists what changes a session.  A host moves more freely than that: it
evaluates in between, it writes a scalar through its name, and it copies handles
and drops them.  `Host.attempt` says what each move does.

Vectors and scalars are alike in all of this, so the part of a host that is about
the cells of one type is looked at by itself, as `Tables`.
-/

namespace PNorm

/-- What a cell is known by: a bound name or a handle of the host. -/
inductive Alias where
  | name (name : String)
  | handle (handle : String)
  deriving DecidableEq, Repr

/-- The cells of one type and what they are known by. -/
structure Tables (β : Type) where
  names : Std.HashMap String (Cell β)
  handles : Std.HashMap String (Cell β)
  store : Store β

namespace Tables

variable {β : Type}

/-- The cell that an alias stands for. -/
def cell? (t : Tables β) : Alias → Option (Cell β)
  | .name name => t.names[name]?
  | .handle handle => t.handles[handle]?

/-- The value that is read through an alias. -/
def read? (t : Tables β) (via : Alias) : Option β :=
  (t.cell? via).bind t.store.read?

end Tables

/-- What a host can do next. -/
inductive Move (α : Type) where
  | act (action : Action α)
  | evaluate (source : String)
  /-- Write to the cell of a bound name. -/
  | writeBoundScalar (name : String) (value : α)
  /-- Keep the cell of an alias under one more handle. -/
  | keep (handle : String) (via : Alias)
  | keepScalar (handle : String) (via : Alias)
  | drop (handle : String)
  | dropScalar (handle : String)

namespace Host

variable {α : Type}

def vectorTables (h : Host α) : Tables (List α) :=
  ⟨h.session.vectors, h.vectorHandles, h.session.vectorStore⟩

def scalarTables (h : Host α) : Tables α :=
  ⟨h.session.scalars, h.scalarHandles, h.session.scalarStore⟩

/-- Keep a cell under a handle, if there is one. -/
def holdCell (h : Host α) (handle : String) (cell? : Option (Cell (List α))) : Host α :=
  match cell? with
  | none => h
  | some cell => { h with vectorHandles := h.vectorHandles.insert handle cell }

def holdScalarCell (h : Host α) (handle : String) (cell? : Option (Cell α)) : Host α :=
  match cell? with
  | none => h
  | some cell => { h with scalarHandles := h.scalarHandles.insert handle cell }

/-- The host after a move, or the reason why it is refused. -/
def attempt [FloatArith α] (h : Host α) : Move α → Except SessionError (Host α)
  | .act action => h.perform action
  | .evaluate source => (h.session.evaluate source).map fun _ => h
  | .writeBoundScalar name value =>
      .ok (h.writeScalarCell (h.scalarTables.cell? (.name name)) value)
  | .keep handle via => .ok (h.holdCell handle (h.vectorTables.cell? via))
  | .keepScalar handle via => .ok (h.holdScalarCell handle (h.scalarTables.cell? via))
  | .drop handle => .ok { h with vectorHandles := h.vectorHandles.erase handle }
  | .dropScalar handle => .ok { h with scalarHandles := h.scalarHandles.erase handle }

end Host

end PNorm
