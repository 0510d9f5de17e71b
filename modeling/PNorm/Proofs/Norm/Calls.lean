import PNorm.Proofs.Norm.Reference
import PNorm.Proofs.Session.Runs
import PNorm.Session.Evaluate

/-!
# Calls of the norm

In a session that registered `norm` first, the name keeps that function for good,
and its signature lets only two operand lists through: a vector, and a vector with
a scalar.  `Norm.apply` itself accepts any position with any operand list, and
answers NaN where the host would never call it; `request?` says which vector and
which exponent it reads.

`norm_follows_reference` states both for the two floating-point types: what a call
through a session gives, and what a direct call gives.

`evaluate_norm` is the lemma by which other modules read a call of the norm: a source
text whose operands are known is evaluated to `Norm.apply` of these operands.  It asks
of the session only that `norm` is the norm, so it serves the sessions of a command
line as well as those of a host.
-/

namespace PNorm

namespace Norm

variable {α : Type}

/-- The vector and the exponent that a call through the alternative at a position asks about.  What
stands behind them is not looked at. -/
def request? : Nat → List (Operand α) → Option (List α × Option α)
  | 0, .vector values :: _ => some (values, none)
  | 1, .vector values :: .scalar p :: _ => some (values, some p)
  | _, _ => none

/-- The signature of the norm: a vector, or a vector and a scalar. -/
def signature : Signature := ⟨[[.vector], [.vector, .scalar]]⟩

theorem ofPattern_pattern : Signature.ofPattern pattern = .ok signature := by decide

/-- The signature tells the two forms of a call apart. -/
theorem resolve_signature {operands : List (Operand α)} {index : Nat}
    (hindex : signature.resolve (operands.map Operand.kind) = some index) :
    (∃ values, index = 0 ∧ operands = [.vector values]) ∨
      ∃ values p, index = 1 ∧ operands = [.vector values, .scalar p] := by
  match operands with
  | [] => cases hindex
  | [.vector values] =>
      refine .inl ⟨values, ?_, rfl⟩
      cases hindex
      rfl
  | [.vector values, .scalar p] =>
      refine .inr ⟨values, p, ?_, rfl⟩
      cases hindex
      rfl
  | .scalar _ :: _ => cases hindex
  | .vector _ :: .vector _ :: _ => cases hindex
  | .vector _ :: .scalar _ :: _ :: _ => cases hindex

variable [FloatArith α]

/-! ## Direct calls -/

/-- Without a vector in front there is no norm. -/
theorem apply_of_head (policy : ExponentPolicy) (index : Nat) {operands : List (Operand α)}
    (hhead : operands.head?.bind Operand.vector? = none) :
    apply policy index operands = FloatArith.nan := by
  rw [apply, hhead]

/-- Without an exponent there is no norm. -/
theorem apply_of_exponent (policy : ExponentPolicy) {index : Nat} {operands : List (Operand α)}
    (hexponent : exponent? policy index operands = none) :
    apply policy index operands = FloatArith.nan := by
  rw [apply, hexponent]
  cases operands.head?.bind Operand.vector? with
  | none => rfl
  | some values => rfl

theorem apply_eq_reference [LawfulOne α] (policy : ExponentPolicy) (index : Nat)
    (operands : List (Operand α)) :
    apply policy index operands =
      match request? index operands with
      | some (values, p) => reference policy values p
      | none => FloatArith.nan := by
  fun_cases request? index operands with
  | case1 values rest => exact apply_vector policy values rest
  | case2 values p rest => exact apply_vector_scalar policy values p rest
  | case3 index operands hzero hone =>
      cases operands with
      | nil => exact apply_of_head policy index rfl
      | cons first rest =>
          cases first with
          | scalar p => exact apply_of_head policy index rfl
          | vector values =>
              refine apply_of_exponent policy ?_
              rcases index with _ | _ | index
              · exact (hzero values rest rfl rfl).elim
              · rcases rest with _ | ⟨second, more⟩
                · rfl
                · cases second with
                  | vector other => rfl
                  | scalar p => exact (hone values p more rfl rfl).elim
              · rfl

/-! ## Calls through a session -/

theorem addBuiltins_empty (policy : ExponentPolicy) :
    (Session.empty : Session α).addBuiltins policy =
      .ok (Session.empty.pushFunction "norm" (function signature policy)) := by
  rw [Session.addBuiltins, ofPattern_pattern, Session.addBuilt_eq_ok_iff]
  exact ⟨_, rfl, Session.functionRefusal?_empty (by decide) rfl, rfl⟩

/-- The session of a host that registered the norm and did nothing else. -/
theorem perform_addBuiltins (policy : ExponentPolicy) :
    (Host.empty : Host α).perform (.addBuiltins policy) =
      .ok { Host.empty with
        session := Session.empty.pushFunction "norm" (function signature policy) } :=
  Host.withSession_eq_ok_iff.mpr ⟨_, addBuiltins_empty policy, rfl⟩

theorem session_run_addBuiltins (policy : ExponentPolicy) :
    (Host.empty.run [.addBuiltins policy] : Host α).session =
      Session.empty.pushFunction "norm" (function signature policy) := by
  rw [Host.run_cons, perform_addBuiltins]
  rfl

/-- Whatever a host does after it registered the norm, the name keeps it. -/
theorem function?_norm (policy : ExponentPolicy) (actions : List (Action α)) :
    (Host.empty.run (.addBuiltins policy :: actions)).session.function? "norm" =
      some (function signature policy) := by
  have hperform := perform_addBuiltins (α := α) policy
  rw [Host.run_cons, hperform]
  refine (Host.extends_run (Host.wellFormed_empty.of_perform hperform) actions).function? ?_
  exact Session.function?_pushFunction _ _ _

/-- A call of the norm with operands that its signature lets through. -/
theorem evaluate_norm {s : Session α} {policy : ExponentPolicy} {source : String}
    {args : List Argument} {operands : List (Operand α)} {index : Nat}
    (hnorm : s.function? "norm" = some (function signature policy))
    (hparse : Call.parse source = .ok ⟨"norm", args⟩) (hoperands : s.operands args = .ok operands)
    (hindex : signature.resolve (operands.map Operand.kind) = some index) :
    s.evaluate source = .ok (apply policy index operands) := by
  have hresolve : (function signature policy : Function α).signature.resolve
      (operands.map Operand.kind) = some index := hindex
  simp only [Session.evaluate, hparse, Session.evaluateCall, hnorm, hoperands, hresolve]
  rfl

/-! ## Both ways of calling -/

/-- What is said of the norm over numbers of type `α`.  Equality of numbers is equality of bits, all
NaNs being one. -/
structure FollowsReference (α : Type) [FloatArith α] : Prop where
  /-- A call in a session that registered the norm first. -/
  session : ∀ (policy : ExponentPolicy) (actions : List (Action α)) (call : Call) (result : α),
    let s := (Host.empty.run (.addBuiltins policy :: actions)).session
    call.name = "norm" → s.evaluateCall call = .ok result →
      ∃ values,
        (s.operands call.args = .ok [.vector values] ∧
          result = apply policy 0 [.vector values] ∧
          result = reference policy values none) ∨
        ∃ p, s.operands call.args = .ok [.vector values, .scalar p] ∧
          result = apply policy 1 [.vector values, .scalar p] ∧
          result = reference policy values (some p)
  /-- A call of the function itself, through any position and with any operands. -/
  direct : ∀ (policy : ExponentPolicy) (index : Nat) (operands : List (Operand α)),
    apply policy index operands =
      match request? index operands with
      | some (values, p) => reference policy values p
      | none => FloatArith.nan
  /-- The exponent two is the one that need not be written. -/
  two : ∀ (policy : ExponentPolicy) (values : List α) (p : α),
    (FloatArith.exactValue p).rational? = some 2 →
      reference policy values (some p) = reference policy values none

theorem followsReference [LawfulOne α] : FollowsReference α where
  session := by
    intro policy actions call result s hname hresult
    rw [Session.evaluateCall, hname, function?_norm policy actions] at hresult
    cases hoperands : s.operands call.args with
    | error error =>
        rw [hoperands] at hresult
        cases hresult
    | ok operands =>
        simp only [hoperands] at hresult
        cases hindex : signature.resolve (operands.map Operand.kind) with
        | none =>
            rw [show (function signature policy : Function α).signature = signature from rfl,
              hindex] at hresult
            cases hresult
        | some index =>
            rw [show (function signature policy : Function α).signature = signature from rfl,
              hindex] at hresult
            rcases resolve_signature hindex with ⟨values, rfl, rfl⟩ | ⟨values, p, rfl, rfl⟩
            · cases hresult
              exact ⟨values, .inl ⟨rfl, rfl, apply_vector policy values []⟩⟩
            · cases hresult
              exact ⟨values, .inr ⟨p, rfl, rfl, apply_vector_scalar policy values p []⟩⟩
  direct := apply_eq_reference
  two := by
    intro policy values p hp
    have haccepted : accepted? policy p = some 2 :=
      (accepted?_eq_some_iff policy p 2).mpr ⟨hp, one_le_two, fun _ => rfl⟩
    simp [reference, haccepted, ofAccepted]

/-- **The norm of a session is the reference value**, in both floating-point types. -/
theorem norm_follows_reference : FollowsReference Float ∧ FollowsReference Float32 :=
  ⟨followsReference, followsReference⟩

/-- The norm of `[3, 4]` is five, by a call and by the reference. -/
theorem norm_of_three_four :
    (Host.empty.run [.addBuiltins .integerOnly]).session.evaluateCall
        ⟨"norm", [.vector [3.0, 4.0]]⟩ = .ok (5.0 : Float) ∧
      reference .integerOnly [3.0, 4.0] none = (5.0 : Float) := by
  have hcall : (Host.empty.run [.addBuiltins .integerOnly]).session.evaluateCall
      ⟨"norm", [.vector [3.0, 4.0]]⟩ = .ok (5.0 : Float) := by
    have hvalue : apply .integerOnly 0 [.vector [3.0, 4.0]] = (5.0 : Float) := by decide +kernel
    rw [Session.evaluateCall, function?_norm .integerOnly [], ← hvalue]
    rfl
  refine ⟨hcall, ?_⟩
  obtain ⟨values, ⟨hoperands, _, hresult⟩ | ⟨p, hoperands, _⟩⟩ :=
    norm_follows_reference.1.session .integerOnly [] _ _ rfl hcall
  · cases hoperands
    exact hresult.symm
  · cases hoperands

end Norm

end PNorm
