import PNorm.Proofs.Console.Evaluation
import PNorm.Proofs.Console.Options
import PNorm.Proofs.Session.Values

/-!
# The session of a command

Every command starts with a session of the norm, the vectors and the scalars.  Whether
there is one is a matter of the names alone (`exists_start_iff`).  If there is, then
the norm is its only function and each of the vectors is read under its name.

The session is compared with a list of definitions that are made one after the other, so
that `PNorm.Proofs.Session.Values` applies; what is left here is the first step, the
session with the norm alone (`normSession`).
-/

namespace PNorm

/-- The names that the settings bind, in the order in which they are bound. -/
def Settings.names (settings : Settings) : List String :=
  settings.vectors.map VectorBinding.name ++ settings.scalars.map ScalarBinding.name

namespace Run

variable {settings : Settings} {s : Session Float}

/-- What is defined after the built-in functions. -/
def values (settings : Settings) : List (Definition Float) :=
  (settings.vectors.map vectorStep ++ settings.scalars.map scalarStep).map Step.definition

theorem bindsValue_values : ∀ d ∈ values settings, d.BindsValue := by
  intro d hd
  obtain ⟨step, hstep, rfl⟩ := List.mem_map.mp hd
  rcases List.mem_append.mp hstep with hvector | hscalar
  · obtain ⟨binding, _, rfl⟩ := List.mem_map.mp hvector
    exact .vector _ _
  · obtain ⟨binding, _, rfl⟩ := List.mem_map.mp hscalar
    exact .scalar _ _

private theorem map_name_values (settings : Settings) :
    (values settings).map Definition.name = settings.names := by
  simp only [values, Settings.names, List.map_append, List.map_map]
  rfl

/-- The only name of a session with the norm alone. -/
theorem bound_normSession (policy : ExponentPolicy) (name : String) :
    (normSession policy).bound name = ("norm" == name) := by
  simp [normSession]

/-! ## Whether there is one -/

theorem start_eq_ok_iff :
    start settings = .ok s ↔
      (normSession settings.policy).defineAll (values settings) = .ok s := by
  have hbuiltins : (Session.empty (α := Float)).define (.builtins settings.policy) =
      .ok (normSession settings.policy) := Norm.addBuiltins_empty settings.policy
  rw [start_eq, takeAll_eq_ok_iff, steps, List.map_cons, Session.defineAll, hbuiltins]
  rfl

/-- A session starts if and only if all names are symbol names other than that of the norm, and no
two are the same. -/
theorem exists_start_iff :
    (∃ s, start settings = .ok s) ↔
      (∀ name ∈ settings.names, isSymbolName name = true ∧ name ≠ "norm") ∧
        settings.names.Nodup := by
  simp only [start_eq_ok_iff, Session.exists_defineAll_iff bindsValue_values, bound_normSession,
    ← map_name_values, List.forall_mem_map, beq_eq_false_iff_ne, ne_comm]

/-! ## What it knows -/

theorem retains_of_start (hstart : start settings = .ok s) :
    (normSession settings.policy).Retains s :=
  (wellFormed_normSession _).retains_defineAll bindsValue_values (start_eq_ok_iff.mp hstart)

theorem function?_norm_of_start (hstart : start settings = .ok s) :
    s.function? "norm" = some (Norm.function Norm.signature settings.policy) :=
  function?_norm_of_functions (retains_of_start hstart).functions

theorem vector?_of_start (hstart : start settings = .ok s) {binding : VectorBinding}
    (hbinding : binding ∈ settings.vectors) : s.vector? binding.name = some binding.values := by
  refine (wellFormed_normSession _).vector?_of_mem bindsValue_values
    (start_eq_ok_iff.mp hstart) ?_
  have hstep : vectorStep binding ∈
      settings.vectors.map vectorStep ++ settings.scalars.map scalarStep :=
    List.mem_append_left _ (List.mem_map_of_mem hbinding)
  exact List.mem_map_of_mem hstep

/-! ## How an evaluation in it ends -/

/-- A session ends in one way. -/
theorem Ends.unique {expression : String} {result result' : Except Failure Float}
    (h : Ends settings expression result) (h' : Ends settings expression result') :
    result = result' :=
  (ends_iff.mp h).symm.trans (ends_iff.mp h')

/-- How a session without bindings ends that calls the norm. -/
theorem ends_norm (fractional : Bool) {source : String} {args : List Argument}
    {operands : List (Operand Float)} {index : Nat}
    (hparse : Call.parse source = .ok ⟨"norm", args⟩)
    (hoperands : (normSession (Settings.policy ⟨[], [], fractional⟩)).operands args = .ok operands)
    (hindex : Norm.signature.resolve (operands.map Operand.kind) = some index) :
    Ends ⟨[], [], fractional⟩ source
      (.ok (Norm.apply (Settings.policy ⟨[], [], fractional⟩) index operands)) := by
  have hvalue := Norm.evaluate_norm (function?_norm_of_functions rfl) hparse hoperands hindex
  rw [ends_iff, start_unbound, Except.bind, evaluate, hvalue]
  rfl

end Run

end PNorm
