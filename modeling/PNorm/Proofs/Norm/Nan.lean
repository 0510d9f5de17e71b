import PNorm.Proofs.Norm.Ways
import PNorm.Proofs.Number.Special

/-!
# NaN in a vector

A vector with a NaN in it has the norm NaN, whatever the exponent.  Sums, products and
square roots hand a NaN on.  A power does so only if its exponent is not zero, since the
power with exponent zero is one, even of NaN.  So it matters that no exponent is
accepted that is zero or whose quotient would be: the loop of `natPow` starts with a
positive exponent (`isNan_natPow`), and a root is taken with a quotient that is not zero
(`isNan_root`).

The rules are collected in `NanArith`.  Both types of numbers have them, as far as their
power keeps to its own rule (`nanArith`).

The exponents that are refused need no such argument: their norm is NaN whatever the
vector is.  So the two policies, which differ in what they refuse, make no difference
to the result.
-/

namespace PNorm

/-- A power that is NaN for the base NaN, unless the exponent is zero. -/
def PowPassesNan {α : Type} [FloatArith α] (pow : α → α → α) : Prop :=
  ∀ x y, IsNan x → ¬ IsZero y → IsNan (pow x y)

/-- Arithmetic that hands NaN on. -/
class NanArith (α : Type) [FloatArith α] : Prop where
  nan : IsNan (FloatArith.nan : α)
  add {x y : α} (h : IsNan x ∨ IsNan y) : IsNan (x + y)
  mul {x y : α} (h : IsNan x ∨ IsNan y) : IsNan (x * y)
  sqrt {x : α} (h : IsNan x) : IsNan (Arith.sqrt x)
  pow : PowPassesNan (Arith.pow : α → α → α)
  one_div {p : α} (hp : (FloatArith.exactValue p).isAtLeastOne = true) : ¬ IsZero (Arith.one / p)
  ofNat {n : Nat} (hpos : 1 ≤ n) (hle : n ≤ Exponent.maxFixed) :
    (FloatArith.exactValue (Arith.ofNat n : α)).isAtLeastOne = true

/-- Packed numbers hand NaN on, if their power does. -/
theorem nanArith {α : Type} [FloatArith α] [PackedArith α]
    (hpow : PowPassesNan (Arith.pow : α → α → α)) : NanArith α where
  nan := PackedArith.isNan_nan
  add := PackedArith.isNan_add
  mul := PackedArith.isNan_mul
  sqrt := PackedArith.isNan_sqrt
  pow := hpow
  one_div hp := (PackedArith.isPositive_one_div hp).not_isZero
  ofNat := PackedArith.isAtLeastOne_ofNat

namespace Norm

section Laws

variable {α : Type} [FloatArith α] [NanArith α]

/-! ## Powers -/

/-- One round of repeated squaring: a NaN that has not got into the result is still in the base. -/
theorem isNan_round {result base : α} {n : Nat} (hpos : 0 < n)
    (h : IsNan result ∨ IsNan base ∧ 0 < n) :
    IsNan (if n % 2 = 1 then result * base else result) ∨
      IsNan (if n / 2 = 0 then base else base * base) ∧ 0 < n / 2 := by
  rcases h with hresult | ⟨hbase, -⟩
  · left
    split
    · exact NanArith.mul (.inl hresult)
    · exact hresult
  · rcases Nat.mod_two_eq_zero_or_one n with heven | hodd
    · right
      have hhalf : 0 < n / 2 := by omega
      rw [if_neg hhalf.ne']
      exact ⟨NanArith.mul (.inl hbase), hhalf⟩
    · left
      rw [if_pos hodd]
      exact NanArith.mul (.inr hbase)

theorem isNan_natPow {x : α} (hx : IsNan x) {n : Nat} (hn : 1 ≤ n) : IsNan (natPow x n) := by
  obtain ⟨last, hlast⟩ := natPowFrom_invariant
    (P := fun result base n => IsNan result ∨ IsNan base ∧ 0 < n)
    (fun _ _ _ => isNan_round) (.inr ⟨hx, hn⟩ : IsNan Arith.one ∨ IsNan x ∧ 0 < n)
  exact hlast.resolve_right fun h => absurd h.2 (by decide)

theorem isNan_power {exponent : Exponent α} (h : Accepted exponent) {x : α} (hx : IsNan x) :
    IsNan (power exponent x) := by
  cases h with
  | fixed hpos hle => exact isNan_natPow hx hpos
  | general hp => exact NanArith.pow x _ hx (isPositive_of_isAtLeastOne hp).not_isZero

/-! ## Sums -/

theorem isNan_foldl {values : List α} {total : α} (h : IsNan total ∨ ∃ x ∈ values, IsNan x) :
    IsNan (values.foldl (fun total x => total + x) total) := by
  induction values generalizing total with
  | nil =>
      rcases h with htotal | ⟨x, hx, -⟩
      · exact htotal
      · cases hx
  | cons y values ih =>
      refine ih ?_
      rcases h with htotal | ⟨x, hx, hnan⟩
      · exact .inl (NanArith.add (.inl htotal))
      · rcases List.mem_cons.mp hx with rfl | hx
        · exact .inl (NanArith.add (.inr hnan))
        · exact .inr ⟨x, hx, hnan⟩

theorem isNan_sum {values : List α} (h : ∃ x ∈ values, IsNan x) : IsNan (sum values) :=
  isNan_foldl (.inr h)

/-! ## Roots -/

theorem isNan_root {exponent : Exponent α} (h : Accepted exponent) {total : α}
    (htotal : IsNan total) : IsNan (root exponent total) := by
  cases h with
  | fixed hpos hle =>
      simp only [root]
      unfold fixedRoot
      split
      · exact htotal
      · exact NanArith.sqrt htotal
      · exact NanArith.pow _ _ htotal (NanArith.one_div (NanArith.ofNat hpos hle))
  | general hp => exact NanArith.pow _ _ htotal (NanArith.one_div hp)

/-! ## Norms -/

theorem isNan_compute {exponent : Exponent α} (h : Accepted exponent) {values : List α}
    (hvalues : ∃ x ∈ values, IsNan x) : IsNan (compute values exponent) := by
  obtain ⟨x, hx, hnan⟩ := hvalues
  rw [compute_eq_root h]
  exact isNan_root h (isNan_sum ⟨_, List.mem_map_of_mem hx, isNan_power h hnan⟩)

theorem isNan_apply (policy : ExponentPolicy) (index : Nat) {values : List α}
    (rest : List (Operand α)) (hvalues : ∃ x ∈ values, IsNan x) :
    IsNan (apply policy index (.vector values :: rest)) := by
  rw [apply_cons]
  cases hexponent : exponent? policy index (.vector [] :: rest) with
  | none => exact NanArith.nan
  | some exponent => exact isNan_compute (accepted_of_exponent? hexponent) hvalues

end Laws

/-- What is said of the norm over numbers of type `α`. -/
structure PassesNan (α : Type) [FloatArith α] : Prop where
  /-- A call of the norm itself, through any position, with any exponent or with none. -/
  direct : ∀ (policy : ExponentPolicy) (index : Nat) (values : List α) (rest : List (Operand α)),
    (∃ x ∈ values, IsNan x) → IsNan (apply policy index (.vector values :: rest))
  /-- A call in a session.  It is not refused. -/
  session : ∀ (s : Session α) (policy : ExponentPolicy) (source : String) (values : List α)
    (p : Option α), s.CallsNorm policy source values p → (∃ x ∈ values, IsNan x) →
      ∃ result, s.evaluate source = .ok result ∧ IsNan result

theorem passesNan {α : Type} [FloatArith α] [NanArith α] : PassesNan α where
  direct policy index _ rest hvalues := isNan_apply policy index rest hvalues
  session := by
    intro s policy source values p hcall hvalues
    refine ⟨_, hcall.evaluate, ?_⟩
    cases p with
    | none => exact isNan_apply policy 0 [] hvalues
    | some p => exact isNan_apply policy 1 [.scalar p] hvalues

/-- **NaN in, NaN out.**  With every power that hands NaN on, the norm of a vector with a NaN in it
is NaN, for both types of numbers, both policies and every exponent, be it accepted or not. -/
theorem nan_in_nan_out {pow : Float → Float → Float} {pow' : Float32 → Float32 → Float32}
    (hpow : PowPassesNan pow) (hpow' : PowPassesNan pow') :
    @PassesNan Float (.withPow pow) ∧ @PassesNan Float32 (.withPow pow') :=
  ⟨@passesNan _ (.withPow pow) (@nanArith _ (.withPow pow) (packedDouble pow) hpow),
    @passesNan _ (.withPow pow') (@nanArith _ (.withPow pow') (packedSingle pow') hpow')⟩

/-- The power of NaN and of one: the base itself, unless the exponent is zero. -/
def flatPow {α : Type} [FloatArith α] (x y : α) : α :=
  match FloatArith.exactValue y with
  | .finite _ 0 _ => Arith.one
  | _ => x

theorem powPassesNan_flatPow {α : Type} [FloatArith α] :
    PowPassesNan (flatPow : α → α → α) := by
  intro x y hx hy
  fun_cases flatPow x y with
  | case1 negative depth hzero => exact absurd ⟨negative, depth, hzero⟩ hy
  | case2 => exact hx

/-- The norm with exponent 33, which takes the general way, of one and NaN. -/
theorem norm_of_one_and_nan :
    PowPassesNan (flatPow : Float → Float → Float) ∧
      PowPassesNan (flatPow : Float32 → Float32 → Float32) ∧
      let _ : FloatArith Float := .withPow flatPow
      let s := (Host.empty.run [.addBuiltins .integerOnly] : Host Float).session
      s.CallsNorm .integerOnly "norm([1,NaN],33)" [1.0, FloatArith.nan] (some 33.0) ∧
        ∃ result, s.evaluate "norm([1,NaN],33)" = .ok result ∧ IsNan result := by
  obtain ⟨⟨-, hnan⟩, -⟩ := nan_in_nan_out powPassesNan_flatPow powPassesNan_flatPow
  have hparse : Call.parse "norm([1,NaN],33)" =
      .ok ⟨"norm", [.vector [1.0, FloatArith.nan], .number 33.0]⟩ := by
    decide +kernel
  refine ⟨powPassesNan_flatPow, powPassesNan_flatPow, ?_⟩
  intro arith s
  have hcall : s.CallsNorm .integerOnly "norm([1,NaN],33)" [1.0, FloatArith.nan] (some 33.0) :=
    ⟨function?_norm .integerOnly [], _, hparse, rfl⟩
  exact ⟨hcall, hnan s _ _ _ _ hcall ⟨FloatArith.nan, by simp, PackedArith.isNan_nan⟩⟩

end Norm

end PNorm
