import PNorm.Proofs.Norm.Zeros
import PNorm.Proofs.Session.Locality
import PNorm.Proofs.Session.Sharing

/-!
# Two sessions with different policies

The same moves are made twice, once with the policy `integerOnly` wherever the norm
is registered and once with `allowFractional`.  The two hosts stay `Twins`: they
differ in nothing but the norm, and in the norm only by its policy.  Every move is
accepted by both or refused by both for the same reason (`Host.Twins.attempt`), so
what is said of two twins is said of all pairs of runs (`twins_played`).

The main statement, `policies_differ_on_fractions`, says what can be told apart from
outside.  An evaluation comes to the same in both sessions, unless it calls the norm
with an exponent that is finite, above one and not whole: there the stricter session
answers NaN.
-/

namespace PNorm

variable {α : Type}

/-! ## Other functions in the same session -/

namespace Session

/-- The same session with other functions. -/
def withFunctions (s : Session α) (r : Registry α) : Session α :=
  { s with functions := r }

theorem nameRefusal?_withFunctions (s : Session α) {r : Registry α}
    (hr : ∀ name, r.contains name = s.functions.contains name) (name : String) :
    (s.withFunctions r).nameRefusal? name = s.nameRefusal? name := by
  have hbound : (s.withFunctions r).bound name = s.bound name := by
    simp only [bound, withFunctions, hr]
  rw [nameRefusal?, nameRefusal?, hbound]

end Session

variable [FloatArith α]

/-! ## The same moves under a policy -/

/-- An action with a policy put in the place of its own. -/
def Action.under (policy : ExponentPolicy) : Action α → Action α
  | .addBuiltins _ => .addBuiltins policy
  | action => action

def Move.under (policy : ExponentPolicy) : Move α → Move α
  | .act action => .act (action.under policy)
  | move => move

/-- Two results that are the same refusal, or values that are related by `R`. -/
inductive SameEnd {ε β γ : Type} (R : β → γ → Prop) : Except ε β → Except ε γ → Prop
  | error (error : ε) : SameEnd R (.error error) (.error error)
  | ok {x : β} {y : γ} (h : R x y) : SameEnd R (.ok x) (.ok y)

theorem SameEnd.map {ε β γ β' γ' : Type} {R : β → γ → Prop} {R' : β' → γ' → Prop}
    {result : Except ε β} {result' : Except ε γ} (h : SameEnd R result result') {f : β → β'}
    {g : γ → γ'} (hfg : ∀ x y, R x y → R' (f x) (g y)) :
    SameEnd R' (result.map f) (result'.map g) := by
  cases h with
  | error error => exact .error error
  | ok hxy => exact .ok (hfg _ _ hxy)

/-! ## Twins -/

/-- The same entry, or the norm under each of the policies. -/
inductive EntryTwins : Entry α → Entry α → Prop
  | same (entry : Entry α) : EntryTwins entry entry
  | norm : EntryTwins ⟨"norm", Norm.function Norm.signature .integerOnly⟩
      ⟨"norm", Norm.function Norm.signature .allowFractional⟩

namespace Registry

/-- Two registries with the same names, and entries that differ in the policy of the norm alone. -/
structure Twins (r r' : Registry α) : Prop where
  coherent : r.Coherent
  index : r'.index = r.index
  size : r'.size = r.size
  get? : ∀ id, Option.Rel EntryTwins (r.get? id) (r'.get? id)

variable {r r' : Registry α}

theorem twins_empty : (empty : Registry α).Twins empty where
  coherent := coherent_empty
  index := rfl
  size := rfl
  get? id := by
    rw [show (empty : Registry α).get? id = none by simp [Registry.get?, empty]]
    exact .none

theorem Twins.contains (h : r.Twins r') (name : String) : r'.contains name = r.contains name := by
  rw [Registry.contains, h.index, Registry.contains]

theorem Twins.idOf? (h : r.Twins r') (name : String) : r'.idOf? name = r.idOf? name := by
  rw [Registry.idOf?, h.index, Registry.idOf?]

/-- Twins refuse the same functions, as far as signatures go. -/
theorem Twins.refusal? (h : r.Twins r') (name : String) {function function' : Function α}
    (hsignature : function'.signature = function.signature) :
    r'.refusal? name function' = r.refusal? name function := by
  rw [Registry.refusal?, Registry.refusal?, h.contains, h.size, hsignature]

theorem Twins.push (h : r.Twins r') {name : String} {function function' : Function α}
    (hentry : EntryTwins ⟨name, function⟩ ⟨name, function'⟩)
    (hfree : r.refusal? name function = none) :
    (r.push name function).Twins (r'.push name function') where
  coherent := h.coherent.push hfree
  index := by
    have hsize : r'.entries.size = r.entries.size := h.size
    rw [Registry.push, Registry.push, h.index, hsize]
  size := by rw [size_push, size_push, h.size]
  get? := by
    intro id
    rw [get?_push, get?_push, h.size]
    split
    · exact .some hentry
    · exact h.get? id

/-- A name stands for the same function in both, or for the norm under each of the policies. -/
theorem Twins.find? (h : r.Twins r') (name : String) :
    r'.find? name = r.find? name ∨ name = "norm" ∧
      r.find? name = some ⟨"norm", Norm.function Norm.signature .integerOnly⟩ ∧
      r'.find? name = some ⟨"norm", Norm.function Norm.signature .allowFractional⟩ := by
  unfold Registry.find?
  rw [h.idOf?]
  cases hid : r.idOf? name with
  | none => exact .inl rfl
  | some id =>
      obtain ⟨entry, hentry, hname⟩ := (h.coherent.idOf?_eq_some_iff name id).mp hid
      have hrel := h.get? id
      rw [hentry] at hrel
      simp only [Option.bind_some, hentry]
      generalize r'.get? id = other at hrel
      cases hrel with
      | some htwins =>
          cases htwins with
          | same => exact .inl rfl
          | norm => exact .inr ⟨hname.symm, rfl, rfl⟩

end Registry

/-! ### Sessions -/

namespace Session

/-- Two sessions that differ in the policy of the norm alone. -/
def Twins (s s' : Session α) : Prop :=
  ∃ r', s' = s.withFunctions r' ∧ s.functions.Twins r'

theorem operands_withFunctions (s : Session α) (r : Registry α) (args : List Argument) :
    (s.withFunctions r).operands args = s.operands args :=
  operands_congr fun _ _ => operand_congr (fun _ _ => rfl) (fun _ _ => rfl)

theorem Twins.addFunction {s s' : Session α} (h : s.Twins s') {name : String}
    {function function' : Function α} (hsignature : function'.signature = function.signature)
    (hentry : EntryTwins ⟨name, function⟩ ⟨name, function'⟩) :
    SameEnd Twins (s.addFunction name function) (s'.addFunction name function') := by
  obtain ⟨r', rfl, hr⟩ := h
  have hrefusal : (s.withFunctions r').functionRefusal? name function' =
      s.functionRefusal? name function := by
    rw [functionRefusal?, functionRefusal?, nameRefusal?_withFunctions s hr.contains,
      ← hr.refusal? name hsignature]
    rfl
  rw [Session.addFunction, Session.addFunction, hrefusal]
  cases hfree : s.functionRefusal? name function with
  | some error => exact .error error
  | none =>
      have hregistry := ((s.functionRefusal?_eq_none_iff name function).mp hfree).2
      exact .ok ⟨_, rfl, hr.push hentry hregistry⟩

theorem Twins.addBuiltins {s s' : Session α} (h : s.Twins s') :
    SameEnd Twins (s.addBuiltins .integerOnly) (s'.addBuiltins .allowFractional) := by
  rw [Session.addBuiltins, Session.addBuiltins, Norm.ofPattern_pattern]
  exact h.addFunction rfl .norm

theorem Twins.addBuilt {s s' : Session α} (h : s.Twins s') (name : String)
    (built : Except PatternError (Function α)) :
    SameEnd Twins (s.addBuilt name built) (s'.addBuilt name built) := by
  cases built with
  | error defect => exact .error _
  | ok function => exact h.addFunction rfl (.same _)

end Session

/-! ## Evaluations -/

namespace Norm

theorem value_of_not_fractional {p : α} (hp : ¬ Fractional p) (values : List α) :
    value .allowFractional values (some p) = value .integerOnly values (some p) := by
  rw [value_some, value_some]
  rcases exponent_cases p with hbelow | ⟨q, hvalue, hone, hwhole⟩ | hfractional
  · rw [classify_of_below_one hbelow, classify_of_below_one hbelow]
  · rw [classify_of_whole hvalue hone hwhole, classify_of_whole hvalue hone hwhole]
  · exact absurd hfractional hp

end Norm

namespace Session

/-- A source text that calls the norm with a vector and an exponent, in each of two sessions. -/
structure BothCallNorm (s s' : Session α) (source : String) (values : List α) (p : α) : Prop where
  strict : s.CallsNorm .integerOnly source values (some p)
  lenient : s'.CallsNorm .allowFractional source values (some p)

variable {s s' : Session α} {source : String}

/-- Without an exponent the policy is not looked at. -/
theorem evaluateCall_norm (args : List Argument)
    (hstrict : s.function? "norm" = some (Norm.function Norm.signature .integerOnly))
    (hlenient : s'.function? "norm" = some (Norm.function Norm.signature .allowFractional))
    (hsame : s'.operands args = s.operands args) :
    s'.evaluateCall ⟨"norm", args⟩ = s.evaluateCall ⟨"norm", args⟩ ∨
      ∃ values p, s.operands args = .ok [.vector values, .scalar p] := by
  simp only [evaluateCall, hstrict, hlenient, hsame]
  cases s.operands args with
  | error error => exact .inl rfl
  | ok operands =>
      simp only [Norm.function]
      cases hindex : Norm.signature.resolve (operands.map Operand.kind) with
      | none => exact .inl rfl
      | some index =>
          rcases Norm.resolve_signature hindex with ⟨values, rfl, rfl⟩ | ⟨values, p, rfl, rfl⟩
          · exact .inl rfl
          · exact .inr ⟨values, p, rfl⟩

/-- An evaluation in two twins comes to the same, or it calls the norm with an exponent. -/
theorem Twins.evaluate (h : s.Twins s') (source : String) :
    s'.evaluate source = s.evaluate source ∨ ∃ values p, s.BothCallNorm s' source values p := by
  obtain ⟨r', rfl, hr⟩ := h
  cases hparse : Call.parse source with
  | error refusal =>
      refine .inl ?_
      rw [Session.evaluate, Session.evaluate, hparse]
  | ok call =>
      simp only [Session.evaluate, hparse]
      rcases hr.find? call.name with hsame | ⟨hname, hfound, hfound'⟩
      · have hfunction : (s.withFunctions r').function? call.name = s.function? call.name :=
          congrArg (Option.map Entry.function) hsame
        exact .inl (evaluateCall_congr hfunction (operands_withFunctions s r' _))
      · obtain ⟨name, args⟩ := call
        obtain rfl : name = "norm" := hname
        have hstrict : s.function? "norm" = some (Norm.function Norm.signature .integerOnly) :=
          congrArg (Option.map Entry.function) hfound
        have hlenient : (s.withFunctions r').function? "norm" =
            some (Norm.function Norm.signature .allowFractional) :=
          congrArg (Option.map Entry.function) hfound'
        have hsame := operands_withFunctions s r' args
        refine (evaluateCall_norm args hstrict hlenient hsame).imp_right ?_
        rintro ⟨values, p, hoperands⟩
        exact ⟨values, p, ⟨hstrict, args, hparse, hoperands⟩,
          hlenient, args, hparse, hsame.trans hoperands⟩

theorem Twins.sameEnd_evaluate (h : s.Twins s') (source : String) :
    SameEnd (fun _ _ => True) (s.evaluate source) (s'.evaluate source) := by
  rcases h.evaluate source with hsame | ⟨values, p, hcall⟩
  · rw [hsame]
    cases s.evaluate source with
    | error error => exact .error error
    | ok value => exact .ok trivial
  · rw [hcall.strict.evaluate, hcall.lenient.evaluate]
    exact .ok trivial

end Session

/-! ## Hosts -/

namespace Host

/-- The same host with other functions in its session. -/
def withFunctions (h : Host α) (r : Registry α) : Host α :=
  { h with session := h.session.withFunctions r }

/-- Two hosts that differ in the policy of the norm alone. -/
def Twins (h h' : Host α) : Prop :=
  ∃ r', h' = h.withFunctions r' ∧ h.session.functions.Twins r'

variable {h h' : Host α}

theorem Twins.session (ht : h.Twins h') : h.session.Twins h'.session := by
  obtain ⟨r', rfl, hr⟩ := ht
  exact ⟨r', rfl, hr⟩

theorem Twins.withSession (ht : h.Twins h') {result result' : Except SessionError (Session α)}
    (hresult : SameEnd Session.Twins result result') :
    SameEnd Twins (h.withSession result) (h'.withSession result') := by
  obtain ⟨r', rfl, hr⟩ := ht
  refine hresult.map ?_
  rintro s _ ⟨r'', rfl, hr''⟩
  exact ⟨r'', rfl, hr''⟩

theorem Twins.writeCell (ht : h.Twins h') (cell? : Option (Cell (List α))) (values : List α) :
    (h.writeCell cell? values).Twins (h'.writeCell cell? values) := by
  obtain ⟨r', rfl, hr⟩ := ht
  cases cell? <;> exact ⟨r', rfl, hr⟩

theorem Twins.writeScalarCell (ht : h.Twins h') (cell? : Option (Cell α)) (value : α) :
    (h.writeScalarCell cell? value).Twins (h'.writeScalarCell cell? value) := by
  obtain ⟨r', rfl, hr⟩ := ht
  cases cell? <;> exact ⟨r', rfl, hr⟩

/-- An action is accepted by both or refused by both, and leaves twins. -/
theorem Twins.perform (ht : h.Twins h') (action : Action α) :
    SameEnd Twins (h.perform (action.under .integerOnly))
      (h'.perform (action.under .allowFractional)) := by
  have hsession := ht.session
  -- The functions are the only place where a policy can be.  Every other action depends on them by
  -- the names in use alone, and the twins use the same names.
  cases action with
  | addBuiltins policy => exact ht.withSession hsession.addBuiltins
  | addFunction name built => exact ht.withSession (hsession.addBuilt name built)
  | addVector name values =>
      obtain ⟨r', rfl, hr⟩ := ht
      simp only [Action.under, Host.perform, Session.addVector, Host.withFunctions,
        Session.nameRefusal?_withFunctions _ hr.contains]
      cases h.session.nameRefusal? name with
      | some error => exact .error error
      | none => exact .ok ⟨r', rfl, hr⟩
  | addScalar name value =>
      obtain ⟨r', rfl, hr⟩ := ht
      simp only [Action.under, Host.perform, Session.addScalar, Host.withFunctions,
        Session.nameRefusal?_withFunctions _ hr.contains]
      cases h.session.nameRefusal? name with
      | some error => exact .error error
      | none => exact .ok ⟨r', rfl, hr⟩
  | newShared handle values =>
      obtain ⟨r', rfl, hr⟩ := ht
      exact .ok ⟨r', rfl, hr⟩
  | addSharedVector name handle =>
      obtain ⟨r', rfl, hr⟩ := ht
      simp only [Action.under, Host.perform, Session.addSharedVector, Host.withFunctions,
        Session.nameRefusal?_withFunctions _ hr.contains]
      cases h.vectorHandles[handle]? with
      | none => exact .ok ⟨r', rfl, hr⟩
      | some cell =>
          cases h.session.nameRefusal? name with
          | some error => exact .error error
          | none => exact .ok ⟨r', rfl, hr⟩
  | write handle values =>
      obtain ⟨r', rfl, hr⟩ := id ht
      exact .ok (ht.writeCell _ values)
  | push handle value =>
      obtain ⟨r', rfl, hr⟩ := id ht
      exact .ok (ht.writeCell _ _)
  | setScalar handle value =>
      obtain ⟨r', rfl, hr⟩ := id ht
      exact .ok (ht.writeScalarCell _ value)
  | writeBound name values =>
      obtain ⟨r', rfl, hr⟩ := id ht
      exact .ok (ht.writeCell _ values)

/-- A move is accepted by both or refused by both, and leaves twins. -/
theorem Twins.attempt (ht : h.Twins h') (move : Move α) :
    SameEnd Twins (h.attempt (move.under .integerOnly))
      (h'.attempt (move.under .allowFractional)) := by
  cases move with
  | act action => exact ht.perform action
  | evaluate source => exact (ht.session.sameEnd_evaluate source).map fun _ _ _ => ht
  | writeBoundScalar name value =>
      obtain ⟨r', rfl, hr⟩ := id ht
      exact .ok (ht.writeScalarCell _ value)
  | keep handle via =>
      obtain ⟨r', rfl, hr⟩ := ht
      simp only [Move.under, Host.attempt]
      rw [show (h.withFunctions r').vectorTables = h.vectorTables from rfl]
      cases h.vectorTables.cell? via <;> exact .ok ⟨r', rfl, hr⟩
  | keepScalar handle via =>
      obtain ⟨r', rfl, hr⟩ := ht
      simp only [Move.under, Host.attempt]
      rw [show (h.withFunctions r').scalarTables = h.scalarTables from rfl]
      cases h.scalarTables.cell? via <;> exact .ok ⟨r', rfl, hr⟩
  | drop handle =>
      obtain ⟨r', rfl, hr⟩ := ht
      exact .ok ⟨r', rfl, hr⟩
  | dropScalar handle =>
      obtain ⟨r', rfl, hr⟩ := ht
      exact .ok ⟨r', rfl, hr⟩

end Host

/-- Two runs of the same moves under the two policies end in twins. -/
theorem twins_played (moves : List (Move α)) :
    (played (moves.map (Move.under .integerOnly))).1.Twins
      (played (moves.map (Move.under .allowFractional))).1 := by
  induction moves using List.reverseRecOn with
  | nil => exact ⟨.empty, rfl, Registry.twins_empty⟩
  | append_singleton moves move ih =>
      simp only [List.map_append, List.map_singleton, played_concat]
      have hmove := ih.attempt move
      generalize Host.attempt _ (move.under .integerOnly) = strict at hmove
      generalize Host.attempt _ (move.under .allowFractional) = lenient at hmove
      cases hmove with
      | error error => exact ih
      | ok hnext => exact hnext

/-! ## What can be told apart -/

namespace Session

/-- What is said of a session with the policy `integerOnly` and its twin with `allowFractional`.  An
exponent that is NaN or an infinity is no rational number. -/
structure DifferOnFractions (s s' : Session α) : Prop where
  /-- Without a fractional exponent both come to the same, be it a value or a refusal. -/
  same : ∀ source, (∀ values p, s.BothCallNorm s' source values p → ¬ Norm.Fractional p) →
    s'.evaluate source = s.evaluate source
  /-- With one, the stricter session answers NaN where the other computes. -/
  fractional : ∀ source values p, s.BothCallNorm s' source values p → Norm.Fractional p →
    s.evaluate source = .ok FloatArith.nan ∧ s'.evaluate source = .ok (Norm.general p values)
  /-- What is not at least one has no norm in either. -/
  below : ∀ source values p, s.BothCallNorm s' source values p →
    (∀ q, (FloatArith.exactValue p).rational? = some q → q < 1) →
    s.evaluate source = .ok FloatArith.nan ∧ s'.evaluate source = .ok FloatArith.nan
  /-- A whole exponent of any size takes one way in both. -/
  whole : ∀ source values p q, s.BothCallNorm s' source values p →
    (FloatArith.exactValue p).rational? = some q → 1 ≤ q → q.den = 1 →
    ∃ exponent, (∀ policy, Exponent.classify policy p = some exponent) ∧
      s.evaluate source = .ok (Norm.compute values exponent) ∧
      s'.evaluate source = .ok (Norm.compute values exponent)

theorem Twins.differOnFractions {s s' : Session α} (h : s.Twins s') : s.DifferOnFractions s' where
  same := by
    intro source hwhole
    rcases h.evaluate source with hsame | ⟨values, p, hcall⟩
    · exact hsame
    · rw [hcall.strict.evaluate, hcall.lenient.evaluate,
        Norm.value_of_not_fractional (hwhole values p hcall)]
  fractional := by
    intro source values p hcall hp
    obtain ⟨hstrict, hlenient⟩ := Norm.classify_of_fractional hp
    rw [hcall.strict.evaluate, hcall.lenient.evaluate, Norm.value_some, Norm.value_some,
      hstrict, hlenient]
    exact ⟨rfl, rfl⟩
  below := by
    intro source values p hcall hp
    have hnone := Norm.classify_of_below_one hp
    rw [hcall.strict.evaluate, hcall.lenient.evaluate, Norm.value_some, Norm.value_some,
      hnone, hnone]
    exact ⟨rfl, rfl⟩
  whole := by
    intro source values p q hcall hp hone hwhole
    have hsome := Norm.classify_of_whole hp hone hwhole
    refine ⟨_, hsome, ?_⟩
    rw [hcall.strict.evaluate, hcall.lenient.evaluate, Norm.value_some, Norm.value_some,
      hsome, hsome]
    exact ⟨rfl, rfl⟩

/-- **Policies differ on fractions only.**  Whatever moves a host makes, with the policy
`integerOnly` in one session and `allowFractional` in the other, no source text tells the sessions
apart but a call of the norm with a fractional exponent. -/
theorem policies_differ_on_fractions (moves : List (Move α)) :
    (played (moves.map (Move.under .integerOnly))).1.session.DifferOnFractions
      (played (moves.map (Move.under .allowFractional))).1.session :=
  (twins_played moves).session.differOnFractions

private theorem rational?_of_five_halves (k : Nat) :
    (ExactValue.finite false (5 * 2 ^ k) (k + 1)).rational? = some (5 / 2) := by
  have hpow : (2 : ℚ) ^ k ≠ 0 := pow_ne_zero k two_ne_zero
  simp only [ExactValue.rational?, Bool.false_eq_true, if_false, one_mul, Option.some.injEq]
  push_cast
  rw [pow_succ, div_eq_div_iff (mul_ne_zero hpow two_ne_zero) two_ne_zero]
  ring

/-- The norm of one with the exponent two and a half, which only one of the two policies lets
through. -/
theorem norm_with_five_halves :
    let _ : FloatArith Float := .withPow Norm.basePow
    let moves : List (Move Float) := [.act (.addBuiltins .integerOnly)]
    let s := (played (moves.map (Move.under .integerOnly))).1.session
    let s' := (played (moves.map (Move.under .allowFractional))).1.session
    s.BothCallNorm s' "norm([1],2.5)" [1.0] 2.5 ∧ Norm.Fractional (2.5 : Float) ∧
      s.evaluate "norm([1],2.5)" = .ok FloatArith.nan ∧
      s'.evaluate "norm([1],2.5)" = .ok 1.0 := by
  intro arith moves s s'
  have hparse : Call.parse "norm([1],2.5)" = .ok ⟨"norm", [.vector [1.0], .number 2.5]⟩ := by
    decide +kernel
  have hfunction (policy : ExponentPolicy) :
      (played (moves.map (Move.under policy))).1.session.function? "norm" =
        some (Norm.function Norm.signature policy) := by
    change (played ([.addBuiltins policy].map Move.act)).1.session.function? "norm" = _
    rw [played_act]
    exact Norm.function?_norm policy []
  have hcall : s.BothCallNorm s' "norm([1],2.5)" [1.0] 2.5 :=
    ⟨⟨hfunction .integerOnly, _, hparse, rfl⟩, hfunction .allowFractional, _, hparse, rfl⟩
  have hvalue : FloatArith.exactValue (2.5 : Float) = .finite false (5 * 2 ^ 1073) (1073 + 1) := by
    decide +kernel
  have hfractional : Norm.Fractional (2.5 : Float) := by
    refine ⟨5 / 2, ?_, by norm_num, by norm_num⟩
    rw [hvalue, rational?_of_five_halves]
  have hone : @Norm.general _ arith.toArith 2.5 [1.0] = (1.0 : Float) := by decide +kernel
  obtain ⟨hstrict, hlenient⟩ :=
    (policies_differ_on_fractions moves).fractional _ _ _ hcall hfractional
  rw [hone] at hlenient
  exact ⟨hcall, hfractional, hstrict, hlenient⟩

end Session

end PNorm
