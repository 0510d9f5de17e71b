import Mathlib.Data.List.Induction
import PNorm.Proofs.Session.Atomicity
import PNorm.Proofs.Session.Record

/-!
# Shared cells

A host and its session know the same cells by different aliases, and each of them
may write.  `played` makes the moves of a host and keeps a `History` at the side:
a record of the vector cells and one of the scalar cells.  The history never looks
at the host.  It resolves an alias from what was recorded about it, and the value
of a cell is what was recorded last.

`Follows.attempt` shows that the host and the history stay together through every
move that is accepted, one case per move, and `follows_played` that they do so in
whole runs.  The main statement, `storage_is_shared`, adds what a write is seen
by, and what no move can change.

The order of the argument is from one cell to all of them:

* `PNorm.Proofs.Session.Record` has the events, and what one event does to tables
  that agree with a record;
* here each action is taken apart into such events, and where a host writes
  through a handle or a name the two sides are shown to mean the same cell;
* a drop or a replacement of a handle is an event as well.  It is the one move
  that takes something away, and it takes it from the host only: the names of the
  session keep their cells.
-/

namespace PNorm

/-- What has happened to the cells of a host. -/
structure History (α : Type) where
  vectors : Record (List α)
  scalars : Record α

namespace History

variable {α : Type}

def empty : History α := ⟨[], []⟩

/-- The history after an accepted move. -/
def after (past : History α) : Move α → History α
  | .act (.addVector name values) => { past with vectors := past.vectors.bind name values }
  | .act (.addScalar name value) => { past with scalars := past.scalars.bind name value }
  | .act (.newShared handle values) => { past with vectors := past.vectors.make handle values }
  | .act (.addSharedVector name handle) =>
      { past with vectors := past.vectors.mention (.handle handle) (.named name ·) }
  | .act (.write handle values) =>
      { past with vectors := past.vectors.mention (.handle handle) (.wrote · values) }
  | .act (.push handle value) =>
      let values := (past.vectors.read? (.handle handle)).getD [] ++ [value]
      { past with vectors := past.vectors.mention (.handle handle) (.wrote · values) }
  | .act (.writeBound name values) =>
      { past with vectors := past.vectors.mention (.name name) (.wrote · values) }
  | .act (.setScalar handle value) =>
      { past with scalars := past.scalars.mention (.handle handle) (.wrote · value) }
  | .writeBoundScalar name value =>
      { past with scalars := past.scalars.mention (.name name) (.wrote · value) }
  | .keep handle via => { past with vectors := past.vectors.mention via (.held handle ·) }
  | .keepScalar handle via => { past with scalars := past.scalars.mention via (.held handle ·) }
  | .drop handle => { past with vectors := .dropped handle :: past.vectors }
  | .dropScalar handle => { past with scalars := .dropped handle :: past.scalars }
  | .act (.addBuiltins _) | .act (.addFunction _ _) | .evaluate _ => past

/-- The operand that an argument stands for, told from what was written last. -/
def operand [FloatArith α] (past : History α) : Argument → Except SessionError (Operand α)
  | .number value => .ok (.scalar (FloatArith.ofDouble value))
  | .vector values => .ok (.vector (values.map FloatArith.ofDouble))
  | .identifier name =>
      match past.vectors.read? (.name name), past.scalars.read? (.name name) with
      | some values, _ => .ok (.vector values)
      | none, some value => .ok (.scalar value)
      | none, none => .error (.undefinedVariable name)

end History

/-- A move adds to the past. -/
theorem History.suffix_after {α : Type} (past : History α) (move : Move α) :
    past.vectors <:+ (past.after move).vectors ∧ past.scalars <:+ (past.after move).scalars := by
  cases move with
  | act action =>
      cases action with
      | addBuiltins | addFunction => exact ⟨List.suffix_rfl, List.suffix_rfl⟩
      | addVector name values => exact ⟨⟨[_, _, _], rfl⟩, List.suffix_rfl⟩
      | addScalar name value => exact ⟨List.suffix_rfl, ⟨[_, _, _], rfl⟩⟩
      | newShared handle values => exact ⟨⟨[_, _], rfl⟩, List.suffix_rfl⟩
      | addSharedVector | write | push | writeBound =>
          exact ⟨Record.suffix_mention _ _ _, List.suffix_rfl⟩
      | setScalar => exact ⟨List.suffix_rfl, Record.suffix_mention _ _ _⟩
  | evaluate source => exact ⟨List.suffix_rfl, List.suffix_rfl⟩
  | writeBoundScalar | keepScalar => exact ⟨List.suffix_rfl, Record.suffix_mention _ _ _⟩
  | keep => exact ⟨Record.suffix_mention _ _ _, List.suffix_rfl⟩
  | drop => exact ⟨List.suffix_cons _ _, List.suffix_rfl⟩
  | dropScalar => exact ⟨List.suffix_rfl, List.suffix_cons _ _⟩

/-- A host after some moves, those that are refused left out, and what has happened to its cells. -/
def played {α : Type} [FloatArith α] (moves : List (Move α)) : Host α × History α :=
  moves.foldl (fun state move =>
    match state.1.attempt move with
    | .error _ => state
    | .ok h => (h, state.2.after move)) (.empty, .empty)

/-- The history tells what the host reads, of vectors and of scalars. -/
structure Follows {α : Type} (h : Host α) (past : History α) : Prop where
  vectors : Reflects past.vectors h.vectorTables
  scalars : Reflects past.scalars h.scalarTables

/-- A name that can be bound has no cell. -/
theorem Session.unbound_of_fresh {α : Type} {s : Session α} {name : String}
    (hname : s.nameRefusal? name = none) : s.vectors[name]? = none ∧ s.scalars[name]? = none := by
  have hroles := roles_of_fresh hname
  simp only [roles, List.cons.injEq] at hroles
  exact ⟨by simpa using hroles.1, by simpa using hroles.2.1⟩

/-! ## Through an alias

To write to a cell and to keep it is one event in the tables of its type.  The tables of the other
type stay as they are. -/

namespace Host

variable {α : Type}

theorem vectorTables_writeCell (h : Host α) (via : Alias) (values : List α) :
    (h.writeCell (h.vectorTables.cell? via) values).vectorTables =
      h.vectorTables.mention via (.wrote · values) := by
  unfold writeCell Tables.mention
  cases h.vectorTables.cell? via <;> rfl

theorem scalarTables_writeCell (h : Host α) (cell? : Option (Cell (List α))) (values : List α) :
    (h.writeCell cell? values).scalarTables = h.scalarTables := by
  cases cell? <;> rfl

theorem scalarTables_writeScalarCell (h : Host α) (via : Alias) (value : α) :
    (h.writeScalarCell (h.scalarTables.cell? via) value).scalarTables =
      h.scalarTables.mention via (.wrote · value) := by
  unfold writeScalarCell Tables.mention
  cases h.scalarTables.cell? via <;> rfl

theorem vectorTables_writeScalarCell (h : Host α) (cell? : Option (Cell α)) (value : α) :
    (h.writeScalarCell cell? value).vectorTables = h.vectorTables := by
  cases cell? <;> rfl

private theorem vectorTables_holdCell (h : Host α) (handle : String) (via : Alias) :
    (h.holdCell handle (h.vectorTables.cell? via)).vectorTables =
      h.vectorTables.mention via (.held handle ·) := by
  unfold holdCell Tables.mention
  cases h.vectorTables.cell? via <;> rfl

private theorem scalarTables_holdCell (h : Host α) (handle : String)
    (cell? : Option (Cell (List α))) : (h.holdCell handle cell?).scalarTables = h.scalarTables := by
  cases cell? <;> rfl

private theorem scalarTables_holdScalarCell (h : Host α) (handle : String) (via : Alias) :
    (h.holdScalarCell handle (h.scalarTables.cell? via)).scalarTables =
      h.scalarTables.mention via (.held handle ·) := by
  unfold holdScalarCell Tables.mention
  cases h.scalarTables.cell? via <;> rfl

private theorem vectorTables_holdScalarCell (h : Host α) (handle : String)
    (cell? : Option (Cell α)) : (h.holdScalarCell handle cell?).vectorTables = h.vectorTables := by
  cases cell? <;> rfl

end Host

namespace Follows

variable {α : Type} {h h' : Host α} {past : History α}

theorem empty : Follows (Host.empty : Host α) .empty :=
  ⟨Reflects.empty, Reflects.empty⟩

theorem writeCell (hpast : Follows h past) (via : Alias) (values : List α) :
    Follows (h.writeCell (h.vectorTables.cell? via) values)
      { past with vectors := past.vectors.mention via (.wrote · values) } where
  vectors := by
    rw [Host.vectorTables_writeCell]
    exact hpast.vectors.mention fun _ hcell => hcell
  scalars := by
    rw [Host.scalarTables_writeCell]
    exact hpast.scalars

theorem writeScalarCell (hpast : Follows h past) (via : Alias) (value : α) :
    Follows (h.writeScalarCell (h.scalarTables.cell? via) value)
      { past with scalars := past.scalars.mention via (.wrote · value) } where
  vectors := by
    rw [Host.vectorTables_writeScalarCell]
    exact hpast.vectors
  scalars := by
    rw [Host.scalarTables_writeScalarCell]
    exact hpast.scalars.mention fun _ hcell => hcell

theorem holdCell (hpast : Follows h past) (handle : String) (via : Alias) :
    Follows (h.holdCell handle (h.vectorTables.cell? via))
      { past with vectors := past.vectors.mention via (.held handle ·) } where
  vectors := by
    rw [Host.vectorTables_holdCell]
    exact hpast.vectors.mention fun _ hcell => hcell
  scalars := by
    rw [Host.scalarTables_holdCell]
    exact hpast.scalars

theorem holdScalarCell (hpast : Follows h past) (handle : String) (via : Alias) :
    Follows (h.holdScalarCell handle (h.scalarTables.cell? via))
      { past with scalars := past.scalars.mention via (.held handle ·) } where
  vectors := by
    rw [Host.vectorTables_holdScalarCell]
    exact hpast.vectors
  scalars := by
    rw [Host.scalarTables_holdScalarCell]
    exact hpast.scalars.mention fun _ hcell => hcell

/-! ## One move -/

variable [FloatArith α]

theorem perform {action : Action α} (hpast : Follows h past)
    (hperform : h.perform action = .ok h') :
    Follows h' (past.after (.act action)) := by
  -- One case per action, and each is one event of the record of its cells, or none.
  cases action with
  | addBuiltins policy =>
      obtain ⟨session, hsession, rfl⟩ := Host.withSession_eq_ok_iff.mp hperform
      obtain ⟨function, _, _, rfl⟩ := Session.addBuilt_eq_ok_iff.mp hsession
      exact ⟨hpast.vectors, hpast.scalars⟩
  | addVector name values =>
      obtain ⟨⟨cell, session⟩, hsession, rfl⟩ := Host.map_eq_ok_iff.mp hperform
      obtain ⟨hname, rfl, rfl⟩ := Session.addVector_eq_ok_iff.mp hsession
      exact ⟨hpast.vectors.bind (Session.unbound_of_fresh hname).1 values, hpast.scalars⟩
  | addScalar name value =>
      obtain ⟨⟨cell, session⟩, hsession, rfl⟩ := Host.map_eq_ok_iff.mp hperform
      obtain ⟨hname, rfl, rfl⟩ := Session.addScalar_eq_ok_iff.mp hsession
      exact ⟨hpast.vectors, hpast.scalars.bind (Session.unbound_of_fresh hname).2 value⟩
  | newShared handle values =>
      cases hperform
      exact ⟨hpast.vectors.make handle values, hpast.scalars⟩
  | addSharedVector name handle =>
      have hcell : h.vectorHandles[handle]? = past.vectors.cell? (.handle handle) :=
        hpast.vectors.cells (.handle handle)
      -- The host and the history find the same cell behind the handle, or none.
      simp only [History.after]
      rcases Host.addSharedVector_eq_ok_iff.mp hperform with
        ⟨hnone, rfl⟩ | ⟨cell, hsome, hname, rfl⟩
      · rw [Record.mention_of_none (hcell.symm.trans hnone)]
        exact hpast
      · rw [Record.mention_of_some (hcell.symm.trans hsome)]
        have hcreated : h.session.vectorStore.Created cell :=
          hpast.vectors.live (.handle handle) cell hsome
        exact ⟨hpast.vectors.named (Session.unbound_of_fresh hname).1 hcreated, hpast.scalars⟩
  | addFunction name built =>
      obtain ⟨session, hsession, rfl⟩ := Host.withSession_eq_ok_iff.mp hperform
      obtain ⟨function, _, _, rfl⟩ := Session.addBuilt_eq_ok_iff.mp hsession
      exact ⟨hpast.vectors, hpast.scalars⟩
  | write handle values =>
      cases hperform
      exact hpast.writeCell (.handle handle) values
  | push handle value =>
      cases hperform
      have hread : h.read? handle = past.vectors.read? (.handle handle) :=
        hpast.vectors.read? (.handle handle)
      -- The longer list is made of what the history says is there.
      rw [hread]
      exact hpast.writeCell (.handle handle) _
  | setScalar handle value =>
      cases hperform
      exact hpast.writeScalarCell (.handle handle) value
  | writeBound name values =>
      cases hperform
      exact hpast.writeCell (.name name) values

/-- A move that is accepted keeps the history true. -/
theorem attempt {move : Move α} (hpast : Follows h past) (hattempt : h.attempt move = .ok h') :
    Follows h' (past.after move) := by
  cases move with
  | act action => exact hpast.perform hattempt
  | evaluate source =>
      obtain ⟨_, _, rfl⟩ := Host.map_eq_ok_iff.mp hattempt
      exact hpast
  | writeBoundScalar name value =>
      cases hattempt
      exact hpast.writeScalarCell (.name name) value
  | keep handle via =>
      cases hattempt
      exact hpast.holdCell handle via
  | keepScalar handle via =>
      cases hattempt
      exact hpast.holdScalarCell handle via
  | drop handle =>
      cases hattempt
      exact ⟨hpast.vectors.dropped handle, hpast.scalars⟩
  | dropScalar handle =>
      cases hattempt
      exact ⟨hpast.vectors, hpast.scalars.dropped handle⟩

/-! ## Reading and evaluating -/

private theorem operand_eq (hpast : Follows h past) (arg : Argument) :
    h.session.operand arg = past.operand arg := by
  cases arg with
  | number value => rfl
  | vector values => rfl
  | identifier name =>
      have hvector : h.session.vector? name = past.vectors.read? (.name name) :=
        hpast.vectors.read? (.name name)
      have hscalar : h.session.scalar? name = past.scalars.read? (.name name) :=
        hpast.scalars.read? (.name name)
      cases hvalues : past.vectors.read? (.name name) with
      | some values => simp only [Session.operand, History.operand, hvector, hvalues]
      | none =>
          cases hvalue : past.scalars.read? (.name name) <;>
            simp only [Session.operand, History.operand, hvector, hscalar, hvalues, hvalue]

theorem operands_eq (hpast : Follows h past) (args : List Argument) :
    h.session.operands args = args.mapM past.operand := by
  induction args with
  | nil => rfl
  | cons arg rest ih =>
      rw [Session.operands, List.mapM_cons, hpast.operand_eq, ih]
      cases past.operand arg with
      | error error => rfl
      | ok first => cases rest.mapM past.operand <;> rfl

end Follows

/-! ## Writing -/

namespace Host

variable {α : Type} [FloatArith α] {h : Host α} {past : History α}

/-- The moves that write to the vector cell of an alias, and what they write. -/
inductive WritesVector (h : Host α) : Move α → Alias → List α → Prop
  | write (handle : String) (values : List α) :
      WritesVector h (.act (.write handle values)) (.handle handle) values
  | push {handle : String} {old : List α} (hold : h.read? handle = some old) (value : α) :
      WritesVector h (.act (.push handle value)) (.handle handle) (old ++ [value])
  | writeBound (name : String) (values : List α) :
      WritesVector h (.act (.writeBound name values)) (.name name) values

inductive WritesScalar : Move α → Alias → α → Prop
  | setScalar (handle : String) (value : α) :
      WritesScalar (.act (.setScalar handle value)) (.handle handle) value
  | writeBound (name : String) (value : α) :
      WritesScalar (.writeBoundScalar name value) (.name name) value

theorem WritesVector.attempt {move : Move α} {via : Alias} {values : List α}
    (hmove : h.WritesVector move via values) :
    h.attempt move = .ok (h.writeCell (h.vectorTables.cell? via) values) := by
  cases hmove with
  | write handle => rfl
  | @push handle old hold value =>
      show Except.ok
        (h.writeCell h.vectorHandles[handle]? ((h.read? handle).getD [] ++ [value])) = _
      rw [hold]
      rfl
  | writeBound name => rfl

theorem WritesScalar.attempt {move : Move α} {via : Alias} {value : α}
    (hmove : WritesScalar move via value) :
    h.attempt move = .ok (h.writeScalarCell (h.scalarTables.cell? via) value) := by
  cases hmove <;> rfl

/-- What a host can tell of its cells, and what it cannot. -/
structure Shares (h : Host α) (past : History α) : Prop where
  /-- Each alias stands for one cell, which can be read, and holds what was written to it last. -/
  follows : Follows h past
  /-- Reading through a name or a handle gives the value that was written last. -/
  vector? : ∀ name, h.session.vector? name = past.vectors.read? (.name name)
  scalar? : ∀ name, h.session.scalar? name = past.scalars.read? (.name name)
  handle? : ∀ handle, h.read? handle = past.vectors.read? (.handle handle)
  scalarHandle? : ∀ handle, h.scalarTables.read? (.handle handle) =
    past.scalars.read? (.handle handle)
  /-- So does evaluating, for every argument of a call. -/
  operands : ∀ args, h.session.operands args = args.mapM past.operand
  evaluateCall : ∀ call function operands index, h.session.function? call.name = some function →
    call.args.mapM past.operand = .ok operands →
    function.signature.resolve (operands.map Operand.kind) = some index →
    h.session.evaluateCall call = .ok (function.apply index operands)
  /-- A write through one alias of a cell is seen through all of them, and nowhere else. -/
  writesVector : ∀ move via values cell, h.WritesVector move via values →
    h.vectorTables.cell? via = some cell → ∃ h', h.attempt move = .ok h' ∧
      h.vectorTables.Wrote cell values h'.vectorTables ∧ h'.scalarTables = h.scalarTables
  writesScalar : ∀ move via value cell, WritesScalar move via value →
    h.scalarTables.cell? via = some cell → ∃ h', h.attempt move = .ok h' ∧
      h.scalarTables.Wrote cell value h'.scalarTables ∧ h'.vectorTables = h.vectorTables
  /-- A definition that is refused halfway is not noticed through any alias. -/
  refused : ∀ d error, h.session.define d = .error error →
    ∃ session, d.edit.run h.session = .error error session ∧
      h.vectorTables.Unnoticed { h with session }.vectorTables ∧
      h.scalarTables.Unnoticed { h with session }.scalarTables

end Host

namespace Follows

variable {α : Type} [FloatArith α] {h : Host α} {past : History α}

private theorem unnoticed_of_refused (hpast : Follows h past) {d : Definition α}
    {error : SessionError} (hdefine : h.session.define d = .error error) :
    ∃ session, d.edit.run h.session = .error error session ∧
      h.vectorTables.Unnoticed { h with session }.vectorTables ∧
      h.scalarTables.Unnoticed { h with session }.scalarTables := by
  have hsame := Edit.sameBindings_leftover h.session d
  refine ⟨Edit.leftover h.session d, ?_, ?_, ?_⟩
  · rw [Edit.run_edit, hdefine]
  · refine hpast.vectors.unnoticed ?_ hsame.vectorCells
    intro via
    cases via with
    | name name =>
        show (Edit.leftover h.session d).vectors[name]? = h.session.vectors[name]?
        rw [hsame.vectors]
    | handle handle => rfl
  · refine hpast.scalars.unnoticed ?_ hsame.scalarCells
    intro via
    cases via with
    | name name =>
        show (Edit.leftover h.session d).scalars[name]? = h.session.scalars[name]?
        rw [hsame.scalars]
    | handle handle => rfl

theorem shares (hpast : Follows h past) : h.Shares past where
  follows := hpast
  vector? name := hpast.vectors.read? (.name name)
  scalar? name := hpast.scalars.read? (.name name)
  handle? handle := hpast.vectors.read? (.handle handle)
  scalarHandle? handle := hpast.scalars.read? (.handle handle)
  operands := hpast.operands_eq
  evaluateCall := by
    intro call function operands index hfunction hoperands hindex
    rw [← hpast.operands_eq] at hoperands
    simp only [Session.evaluateCall, hfunction, hoperands, hindex]
  writesVector := by
    intro move via values cell hmove hcell
    refine ⟨_, hmove.attempt, ?_, Host.scalarTables_writeCell _ _ _⟩
    rw [Host.vectorTables_writeCell]
    exact hpast.vectors.wrote_mention hcell values
  writesScalar := by
    intro move via value cell hmove hcell
    refine ⟨_, hmove.attempt, ?_, Host.vectorTables_writeScalarCell _ _ _⟩
    rw [Host.scalarTables_writeScalarCell]
    exact hpast.scalars.wrote_mention hcell value
  refused _ _ := hpast.unnoticed_of_refused

end Follows

/-! ## Runs -/

section Runs

variable {α : Type} [FloatArith α]

theorem played_concat (moves : List (Move α)) (move : Move α) :
    played (moves ++ [move]) =
      match (played moves).1.attempt move with
      | .error _ => played moves
      | .ok h => (h, (played moves).2.after move) := by
  rw [played, List.foldl_append]
  rfl

/-- A run of actions alone is what `Host.run` makes of it. -/
theorem played_act (actions : List (Action α)) :
    (played (actions.map .act)).1 = Host.empty.run actions := by
  induction actions using List.reverseRecOn with
  | nil => rfl
  | append_singleton actions action ih =>
      rw [List.map_append, List.map_singleton, played_concat, ih, Host.run_append, Host.run_cons,
        Host.attempt]
      cases hperform : (Host.empty.run actions).perform action with
      | error error => exact ih
      | ok h => rfl

/-- The history is true after every run. -/
theorem follows_played (moves : List (Move α)) : Follows (played moves).1 (played moves).2 := by
  induction moves using List.reverseRecOn with
  | nil => exact Follows.empty
  | append_singleton moves move ih =>
      rw [played_concat]
      cases hattempt : (played moves).1.attempt move with
      | error error => exact ih
      | ok h => exact ih.attempt hattempt

theorem suffix_played (moves more : List (Move α)) :
    (played moves).2.vectors <:+ (played (moves ++ more)).2.vectors ∧
      (played moves).2.scalars <:+ (played (moves ++ more)).2.scalars := by
  induction more using List.reverseRecOn with
  | nil =>
      rw [List.append_nil]
      exact ⟨List.suffix_rfl, List.suffix_rfl⟩
  | append_singleton more move ih =>
      rw [← List.append_assoc, played_concat]
      cases (played (moves ++ more)).1.attempt move with
      | error error => exact ih
      | ok h =>
          have hlast := (played (moves ++ more)).2.suffix_after move
          exact ⟨ih.1.trans hlast.1, ih.2.trans hlast.2⟩

/-- **Names and handles share cells, for good.**  After any moves of a host that started with
nothing, each alias reads what was written last to its cell, through whichever alias, and a write is
seen by the aliases of its cell and by no others.  Whatever moves come next, also if the host
replaces or drops its handles, every name keeps its cell.  An evaluation changes nothing, and
neither does a move that is refused. -/
theorem storage_is_shared (moves more : List (Move α)) :
    (played moves).1.Shares (played moves).2 ∧
      (∀ name cell, (played moves).1.vectorTables.cell? (.name name) = some cell →
        (played (moves ++ more)).1.vectorTables.cell? (.name name) = some cell) ∧
      (∀ name cell, (played moves).1.scalarTables.cell? (.name name) = some cell →
        (played (moves ++ more)).1.scalarTables.cell? (.name name) = some cell) ∧
      (∀ source, played (moves ++ [.evaluate source]) = played moves) ∧
      ∀ move error, (played moves).1.attempt move = .error error →
        played (moves ++ [move]) = played moves := by
  have hpast := follows_played moves
  have hlater := follows_played (moves ++ more)
  obtain ⟨⟨vectors, hvectors⟩, ⟨scalars, hscalars⟩⟩ := suffix_played moves more
  refine ⟨hpast.shares, ?_, ?_, ?_, ?_⟩
  · intro name cell hcell
    rw [hpast.vectors.cells] at hcell
    rw [hlater.vectors.cells, ← hvectors]
    exact Record.denoted?_append hcell vectors
  · intro name cell hcell
    rw [hpast.scalars.cells] at hcell
    rw [hlater.scalars.cells, ← hscalars]
    exact Record.denoted?_append hcell scalars
  · intro source
    rw [played_concat, Host.attempt]
    cases (played moves).1.session.evaluate source <;> rfl
  · intro move error hattempt
    rw [played_concat, hattempt]

/-- The host gives its handle a new cell and writes to that.  The name stays with the old one. -/
theorem vector_of_replaced_handle :
    let moves : List (Move Float) :=
      [.act (.addVector "x" [1.0]), .act (.newShared "x" [2.0]), .act (.write "x" [3.0])]
    (played moves).1.session.vector? "x" = some [1.0] ∧
      (played moves).1.read? "x" = some [3.0] := by
  intro moves
  have hname : isSymbolName "x" = true := by decide
  have hpast : (played moves).2.vectors =
      ((Record.bind [] "x" [1.0]).make "x" [2.0]).mention (.handle "x") (.wrote · [3.0]) := by
    simp [moves, played, Host.attempt, Host.perform, Host.empty, Session.addVector,
      Session.nameRefusal?, hname, Session.bound, Session.empty, Registry.contains, Registry.empty,
      Except.map, History.after, History.empty]
  have hshares := (storage_is_shared moves []).1
  rw [hshares.vector?, hshares.handle?, hpast]
  exact ⟨rfl, rfl⟩

end Runs

end PNorm
