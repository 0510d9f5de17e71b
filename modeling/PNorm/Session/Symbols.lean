import PNorm.Norm.Basic
import PNorm.Session.Registry
import PNorm.Session.Store

/-!
# Names and what they are bound to

The vectors, the scalars and the functions of a session share one namespace.
Vectors and scalars are bound to cells, which the host can go on writing to.  A
name is bound once and keeps its binding.
-/

namespace PNorm

/-- The words that stand for numbers.  Nothing can be called by them. -/
def reservedNames : List String := ["NaN", "inf", "Infinity"]

/-- The names that can be bound: words of letters, digits and underscores that do not start with a
digit and are not reserved. -/
def isSymbolName (name : String) : Bool :=
  match name.toList with
  | [] => false
  | c :: rest => isWordStart c && rest.all isWordPart && !reservedNames.contains name

/-- A session: the bindings of its names and the contents of all cells. -/
structure Session (α : Type) where
  vectors : Std.HashMap String (Cell (List α))
  scalars : Std.HashMap String (Cell α)
  functions : Registry α
  vectorStore : Store (List α)
  scalarStore : Store α

namespace Session

variable {α : Type}

def empty : Session α where
  vectors := ∅
  scalars := ∅
  functions := .empty
  vectorStore := .empty
  scalarStore := .empty

/-! ## Looking up -/

/-- The value of the vector bound to a name. -/
def vector? (s : Session α) (name : String) : Option (List α) :=
  s.vectors[name]?.bind s.vectorStore.read?

/-- The value of the scalar bound to a name. -/
def scalar? (s : Session α) (name : String) : Option α :=
  s.scalars[name]?.bind s.scalarStore.read?

/-- The function bound to a name. -/
def function? (s : Session α) (name : String) : Option (Function α) :=
  (s.functions.find? name).map Entry.function

/-- Whether a name is bound. -/
def bound (s : Session α) (name : String) : Bool :=
  s.vectors.contains name || s.scalars.contains name || s.functions.contains name

/-! ## Binding names -/

/-- Why a name cannot be bound, if it cannot. -/
def nameRefusal? (s : Session α) (name : String) : Option SessionError :=
  if !isSymbolName name then some (.invalidName name)
  else if s.bound name then some (.duplicateName name)
  else none

/-- Bind a name to a cell that exists already. -/
def addSharedVector (s : Session α) (name : String) (cell : Cell (List α)) :
    Except SessionError (Session α) :=
  match s.nameRefusal? name with
  | some error => .error error
  | none => .ok { s with vectors := s.vectors.insert name cell }

/-- Bind a name to a new cell that holds a vector.  The cell is returned to the host. -/
def addVector (s : Session α) (name : String) (values : List α) :
    Except SessionError (Cell (List α) × Session α) :=
  match s.nameRefusal? name with
  | some error => .error error
  | none =>
      let cell := s.vectorStore.next
      .ok (cell, { s with
        vectors := s.vectors.insert name cell
        vectorStore := s.vectorStore.create values })

/-- Bind a name to a new cell that holds a scalar.  The cell is returned to the host. -/
def addScalar (s : Session α) (name : String) (value : α) :
    Except SessionError (Cell α × Session α) :=
  match s.nameRefusal? name with
  | some error => .error error
  | none =>
      let cell := s.scalarStore.next
      .ok (cell, { s with
        scalars := s.scalars.insert name cell
        scalarStore := s.scalarStore.create value })

/-- Why a function cannot be bound to a name, if it cannot. -/
def functionRefusal? (s : Session α) (name : String) (function : Function α) :
    Option SessionError :=
  (s.nameRefusal? name).or (s.functions.refusal? name function)

/-- The session with one more function, whatever was there. -/
def pushFunction (s : Session α) (name : String) (function : Function α) : Session α :=
  { s with functions := s.functions.push name function }

/-- Bind a name to a function. -/
def addFunction (s : Session α) (name : String) (function : Function α) :
    Except SessionError (Session α) :=
  match s.functionRefusal? name function with
  | some error => .error error
  | none => .ok (s.pushFunction name function)

/-- Bind a name to a function whose signature comes from a pattern.  A defect of the pattern is
reported before anything else. -/
def addBuilt (s : Session α) (name : String) (built : Except PatternError (Function α)) :
    Except SessionError (Session α) :=
  match built with
  | .error defect => .error (.badPattern defect)
  | .ok function => s.addFunction name function

/-- Bind the functions that every calculator has, which is `norm`. -/
def addBuiltins [FloatArith α] (s : Session α) (policy : ExponentPolicy) :
    Except SessionError (Session α) :=
  s.addBuilt "norm" ((Signature.ofPattern Norm.pattern).map (Norm.function · policy))

end Session

end PNorm
