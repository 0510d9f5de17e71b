import Std.Data.HashMap
import PNorm.Function
import PNorm.Session.Error

/-!
# The registry of functions

Functions are kept in the order of their registration.  The position of a
function is its number, and names are looked up through an index from names to
numbers.
-/

namespace PNorm

/-- A registered function and its name. -/
structure Entry (α : Type) where
  name : String
  function : Function α

/-- The registered functions and the index of their names. -/
structure Registry (α : Type) where
  index : Std.HashMap String Nat
  entries : Array (Entry α)

namespace Registry

variable {α : Type}

def empty : Registry α := ⟨∅, #[]⟩

/-! ## Looking up -/

def size (r : Registry α) : Nat := r.entries.size

def isEmpty (r : Registry α) : Bool := r.entries.isEmpty

/-- The entry with a number. -/
def get? (r : Registry α) (id : Nat) : Option (Entry α) := r.entries[id]?

/-- The number of a name. -/
def idOf? (r : Registry α) (name : String) : Option Nat := r.index[name]?

/-- The entry of a name. -/
def find? (r : Registry α) (name : String) : Option (Entry α) :=
  (r.idOf? name).bind r.get?

def contains (r : Registry α) (name : String) : Bool := r.index.contains name

/-- The entries in the order of their registration. -/
def toList (r : Registry α) : List (Entry α) := r.entries.toList

/-! ## Registering -/

/-- Why a function cannot be registered, if it cannot: the first that applies of a name in use, a
signature without alternatives and a full registry. -/
def refusal? (r : Registry α) (name : String) (function : Function α) : Option SessionError :=
  if r.contains name then some (.duplicateName name)
  else if function.signature.isEmpty then some (.emptySignature name)
  else if maxFunctions ≤ r.size then some .registryFull
  else none

/-- The registry with one more function, whatever was there. -/
def push (r : Registry α) (name : String) (function : Function α) : Registry α where
  index := r.index.insert name r.entries.size
  entries := r.entries.push ⟨name, function⟩

/-- Register a function under a new name; it gets the next free number. -/
def register (r : Registry α) (name : String) (function : Function α) :
    Except SessionError (Nat × Registry α) :=
  match r.refusal? name function with
  | some error => .error error
  | none => .ok (r.size, r.push name function)

@[simp] theorem size_push (r : Registry α) (name : String) (function : Function α) :
    (r.push name function).size = r.size + 1 := by
  simp [size, push]

end Registry

end PNorm
