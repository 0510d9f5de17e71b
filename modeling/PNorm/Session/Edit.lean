import PNorm.Session.Symbols

/-!
# Editing a session in place

The operations that bind names, once more, as edits of one session that is kept.
An edit goes through its checks and its writes one after the other, over several
layers: a cell is made, the name is checked, the registry checks again and writes
its index and then its entries.  A refusal stops the edit where it stands, and
what it had written by then stays written.

`Definition` lists everything that binds a name.  `Session.define` tries one at
once, by the operations of `PNorm.Session.Symbols`, `Session.defineAll` a list of
them, and `Definition.edit` tries one in place.
-/

namespace PNorm

/-- One operation that binds a name. -/
inductive Definition (α : Type) where
  | vector (name : String) (values : List α)
  /-- Bind a name to a cell that exists already. -/
  | sharedVector (name : String) (cell : Cell (List α))
  | scalar (name : String) (value : α)
  | function (name : String) (built : Except PatternError (Function α))
  | builtins (policy : ExponentPolicy)

namespace Definition

variable {α : Type}

def name : Definition α → String
  | .vector name _ | .sharedVector name _ | .scalar name _ | .function name _ => name
  | .builtins _ => "norm"

/-- The function that a definition binds, if it binds one: it may be spoiled by its pattern. -/
def built? [FloatArith α] : Definition α → Option (Except PatternError (Function α))
  | .vector .. | .sharedVector .. | .scalar .. => none
  | .function _ built => some built
  | .builtins policy => some ((Signature.ofPattern Norm.pattern).map (Norm.function · policy))

end Definition

/-- The session that a definition leads to, or the reason why it is refused. -/
def Session.define {α : Type} [FloatArith α] (s : Session α) :
    Definition α → Except SessionError (Session α)
  | .vector name values => (s.addVector name values).map Prod.snd
  | .sharedVector name cell => s.addSharedVector name cell
  | .scalar name value => (s.addScalar name value).map Prod.snd
  | .function name built => s.addBuilt name built
  | .builtins policy => s.addBuiltins policy

/-- The session that a list of definitions leads to, or the reason why the first of them that is
refused is refused. -/
def Session.defineAll {α : Type} [FloatArith α] (s : Session α) :
    List (Definition α) → Except SessionError (Session α)
  | [] => .ok s
  | d :: rest =>
      match s.define d with
      | .error error => .error error
      | .ok s' => s'.defineAll rest

/-- An edit answers a value or a refusal, and leaves the session as far as it came. -/
abbrev Edit (α β : Type) := EStateM SessionError (Session α) β

namespace Edit

variable {α : Type}

/-! ## Cells -/

def createVector (values : List α) : Edit α (Cell (List α)) :=
  modifyGet fun s =>
    (s.vectorStore.next, { s with vectorStore := s.vectorStore.create values })

def createScalar (value : α) : Edit α (Cell α) :=
  modifyGet fun s =>
    (s.scalarStore.next, { s with scalarStore := s.scalarStore.create value })

/-! ## Vectors and scalars -/

def checkName (name : String) : Edit α Unit := do
  let s ← get
  if !isSymbolName name then throw (.invalidName name)
  if s.bound name then throw (.duplicateName name)

def addSharedVector (name : String) (cell : Cell (List α)) : Edit α Unit := do
  checkName name
  modify fun s => { s with vectors := s.vectors.insert name cell }

/-- The cell is made first, whether the name is good or not. -/
def addVector (name : String) (values : List α) : Edit α (Cell (List α)) := do
  let cell ← createVector values
  addSharedVector name cell
  return cell

def addScalar (name : String) (value : α) : Edit α (Cell α) := do
  checkName name
  let cell ← createScalar value
  modify fun s => { s with scalars := s.scalars.insert name cell }
  return cell

/-! ## Functions -/

/-- Enter a function into the registry, which does its own checks. -/
def register (name : String) (function : Function α) : Edit α Nat := do
  let s ← get
  if s.functions.contains name then throw (.duplicateName name)
  if function.signature.isEmpty then throw (.emptySignature name)
  let id := s.functions.size
  if maxFunctions ≤ id then throw .registryFull
  modify fun s => { s with functions.index := s.functions.index.insert name id }
  modify fun s => { s with functions.entries := s.functions.entries.push ⟨name, function⟩ }
  return id

def addFunction (name : String) (function : Function α) : Edit α Unit := do
  checkName name
  let _ ← register name function

def addBuilt (name : String) : Except PatternError (Function α) → Edit α Unit
  | .error defect => throw (.badPattern defect)
  | .ok function => addFunction name function

def addBuiltins [FloatArith α] (policy : ExponentPolicy) : Edit α Unit :=
  addBuilt "norm" ((Signature.ofPattern Norm.pattern).map (Norm.function · policy))

end Edit

/-- A definition tried in place. -/
def Definition.edit {α : Type} [FloatArith α] : Definition α → Edit α Unit
  | .vector name values => do
      let _ ← Edit.addVector name values
  | .sharedVector name cell => Edit.addSharedVector name cell
  | .scalar name value => do
      let _ ← Edit.addScalar name value
  | .function name built => Edit.addBuilt name built
  | .builtins policy => Edit.addBuiltins policy

end PNorm
