import PNorm.Session.Registry

/-!
# Numbers of sixteen bits

Where a registry is kept in place, it numbers its functions with words of sixteen
bits.  A position that does not fit into a word is refused, and of an accepted
function the index is written first and the entries afterwards.  A refusal stops
the registration where it stands, and what it had written by then stays written.

`Registry` has natural numbers for that and makes every change at once.  An
attempt is an entry that somebody wants to have in the registry; `run` makes a
list of attempts, one after the other, on either of the two.
-/

namespace PNorm

/-- The word for a position, if the position is not too large for one. -/
def wordOf? (position : Nat) : Option UInt16 :=
  if position < UInt16.size then some (UInt16.ofNat position) else none

/-- A registry whose numbers are words. -/
structure WordRegistry (α : Type) where
  index : Std.HashMap String UInt16
  entries : Array (Entry α)

namespace WordRegistry

variable {α : Type}

def empty : WordRegistry α := ⟨∅, #[]⟩

/-- The entry with a number. -/
def get? (w : WordRegistry α) (id : UInt16) : Option (Entry α) := w.entries[id.toNat]?

/-- The number of a name. -/
def idOf? (w : WordRegistry α) (name : String) : Option UInt16 := w.index[name]?

/-- The entry of a name. -/
def find? (w : WordRegistry α) (name : String) : Option (Entry α) :=
  (w.idOf? name).bind w.get?

def contains (w : WordRegistry α) (name : String) : Bool := w.index.contains name

/-- Register a function in place. -/
def register (attempt : Entry α) : EStateM SessionError (WordRegistry α) UInt16 := do
  let w ← get
  if w.contains attempt.name then throw (.duplicateName attempt.name)
  if attempt.function.signature.isEmpty then throw (.emptySignature attempt.name)
  let some id := wordOf? w.entries.size | throw .registryFull
  modify fun w => { w with index := w.index.insert attempt.name id }
  modify fun w => { w with entries := w.entries.push attempt }
  return id

/-- The registry after an attempt, accepted or not. -/
def after (w : WordRegistry α) (attempt : Entry α) : WordRegistry α :=
  match (register attempt).run w with
  | .ok _ w' => w'
  | .error _ w' => w'

def run (w : WordRegistry α) (attempts : List (Entry α)) : WordRegistry α :=
  attempts.foldl after w

end WordRegistry

namespace Registry

variable {α : Type}

/-- The registry after an attempt, accepted or not. -/
def after (r : Registry α) (attempt : Entry α) : Registry α :=
  match r.register attempt.name attempt.function with
  | .ok (_, r') => r'
  | .error _ => r

def run (r : Registry α) (attempts : List (Entry α)) : Registry α :=
  attempts.foldl after r

end Registry

end PNorm
