import PNorm.Session.Symbols

/-!
# The host of a session

The program around a session keeps handles to cells, under names of its own, and
writes through them between evaluations.  Vector handles and scalar handles are
apart.  A handle that gets a new cell under an old name lets the old cell go,
which the names of the session do not notice.

`Action` lists everything that changes a session or its host, and `Host.perform`
says how.  An action that is refused changes nothing.
-/

namespace PNorm

/-- A session together with the handles of its host. -/
structure Host (α : Type) where
  session : Session α
  vectorHandles : Std.HashMap String (Cell (List α))
  scalarHandles : Std.HashMap String (Cell α)

/-- What a host can do to its session.  The name of a new vector or scalar is also the name of the
handle that the host keeps. -/
inductive Action (α : Type) where
  | addBuiltins (policy : ExponentPolicy)
  | addVector (name : String) (values : List α)
  | addScalar (name : String) (value : α)
  /-- Make a cell that has a handle and no name. -/
  | newShared (handle : String) (values : List α)
  /-- Bind a name to the cell of a handle. -/
  | addSharedVector (name handle : String)
  | addFunction (name : String) (built : Except PatternError (Function α))
  | write (handle : String) (values : List α)
  /-- Append one element. -/
  | push (handle : String) (value : α)
  | setScalar (handle : String) (value : α)
  /-- Write to the cell of a bound name. -/
  | writeBound (name : String) (values : List α)

namespace Host

variable {α : Type}

def empty : Host α := ⟨.empty, ∅, ∅⟩

/-! ## Reading through handles -/

/-- The vector behind a handle. -/
def read? (h : Host α) (handle : String) : Option (List α) :=
  h.vectorHandles[handle]?.bind h.session.vectorStore.read?

/-! ## Writing -/

/-- Write a vector to a cell, if there is one. -/
def writeCell (h : Host α) (cell? : Option (Cell (List α))) (values : List α) : Host α :=
  match cell? with
  | none => h
  | some cell =>
      { h with session.vectorStore := h.session.vectorStore.write cell values }

/-- Write a scalar to a cell, if there is one. -/
def writeScalarCell (h : Host α) (cell? : Option (Cell α)) (value : α) : Host α :=
  match cell? with
  | none => h
  | some cell =>
      { h with session.scalarStore := h.session.scalarStore.write cell value }

/-- Put another state of the session in its place. -/
def withSession (h : Host α) (result : Except SessionError (Session α)) :
    Except SessionError (Host α) :=
  result.map fun session => { h with session }

/-- The host after an action, or the reason why it is refused. -/
def perform [FloatArith α] (h : Host α) : Action α → Except SessionError (Host α)
  | .addBuiltins policy => h.withSession (h.session.addBuiltins policy)
  | .addVector name values =>
      (h.session.addVector name values).map fun (cell, session) =>
        { h with session, vectorHandles := h.vectorHandles.insert name cell }
  | .addScalar name value =>
      (h.session.addScalar name value).map fun (cell, session) =>
        { h with session, scalarHandles := h.scalarHandles.insert name cell }
  | .newShared handle values =>
      let cell := h.session.vectorStore.next
      .ok { h with
        session.vectorStore := h.session.vectorStore.create values
        vectorHandles := h.vectorHandles.insert handle cell }
  | .addSharedVector name handle =>
      match h.vectorHandles[handle]? with
      | none => .ok h
      | some cell => h.withSession (h.session.addSharedVector name cell)
  | .addFunction name built => h.withSession (h.session.addBuilt name built)
  | .write handle values => .ok (h.writeCell h.vectorHandles[handle]? values)
  | .push handle value =>
      .ok (h.writeCell h.vectorHandles[handle]? ((h.read? handle).getD [] ++ [value]))
  | .setScalar handle value => .ok (h.writeScalarCell h.scalarHandles[handle]? value)
  | .writeBound name values => .ok (h.writeCell h.session.vectors[name]? values)

/-- The host after a list of actions, those that are refused left out. -/
def run [FloatArith α] (h : Host α) (actions : List (Action α)) : Host α :=
  actions.foldl (fun h action => ((h.perform action).toOption).getD h) h

/-! ### After an accepted action -/

section Accepted

variable [FloatArith α] {h : Host α} {name : String}

@[simp] theorem session_run_addVector (hname : h.session.nameRefusal? name = none)
    (values : List α) : (h.run [.addVector name values]).session =
      { h.session with
        vectors := h.session.vectors.insert name h.session.vectorStore.next
        vectorStore := h.session.vectorStore.create values } := by
  simp [run, perform, Session.addVector, hname, Except.map, Except.toOption]

@[simp] theorem session_run_addScalar (hname : h.session.nameRefusal? name = none) (value : α) :
    (h.run [.addScalar name value]).session =
      { h.session with
        scalars := h.session.scalars.insert name h.session.scalarStore.next
        scalarStore := h.session.scalarStore.create value } := by
  simp [run, perform, Session.addScalar, hname, Except.map, Except.toOption]

@[simp] theorem session_run_addFunction {function : Function α}
    (hname : h.session.functionRefusal? name function = none) :
    (h.run [.addFunction name (.ok function)]).session = h.session.pushFunction name function := by
  simp [run, perform, withSession, Session.addBuilt, Session.addFunction, hname, Except.map,
    Except.toOption]

end Accepted

/-! ## Many functions at once -/

/-- Add a function under the names `stem ++ "0"`, `stem ++ "1"` and so on, from `first` on and at
most `count` times, up to the first refusal.  The answer has the number that comes next and the
refusal.  It is one addition after the other, on the session alone: a host that fills its registry
keeps no intermediate states. -/
def addNumbered (s : Session α) (stem : String) (function : Function α) (first : Nat) :
    Nat → Nat × Option SessionError × Session α
  | 0 => (first, none, s)
  | count + 1 =>
      let name := stem ++ toString first
      match s.functionRefusal? name function with
      | some error => (first, some error, s)
      | none => addNumbered (s.pushFunction name function) stem function (first + 1) count

end Host

end PNorm
