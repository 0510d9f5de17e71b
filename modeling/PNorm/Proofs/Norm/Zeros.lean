import PNorm.Proofs.Norm.Ways
import PNorm.Proofs.Number.Special

/-!
# Zeros in a vector

A zero of either sign can be put anywhere into a vector without changing its norm, not
even by a bit.  The power of a zero is a zero, which the sum takes in as it is, unless
the sum so far is the negative zero: that and a positive zero make a positive one.  The
sum is kept from it by its start.  It starts with the positive zero, and a sum becomes
the negative zero only by adding one negative zero to another (`foldl_padded`).

So the norm of nothing but zeros is the norm of the empty vector, which is the root of
the positive zero that the sum starts with (`root_zero`).

The rules are collected in `ZeroArith`.  Both types of numbers have them, as far as
their power keeps to its own rules (`zeroArith`).
-/

namespace PNorm

/-- A power that keeps zeros.  It may change their signs, but leaves the positive zero as it is. -/
def PowKeepsZeros {α : Type} [FloatArith α] (pow : α → α → α) : Prop :=
  (∀ x y, IsZero x → IsPositive y → IsZero (pow x y)) ∧
    ∀ y, IsPositive y → pow Arith.zero y = Arith.zero

/-- Arithmetic in which zeros are neutral, as far as their signs allow it. -/
class ZeroArith (α : Type) [FloatArith α] : Prop extends LawfulOne α where
  zero : ¬ IsNegativeZero (Arith.zero : α)
  add {x z : α} (hx : ¬ IsNegativeZero x) (hz : IsZero z) : x + z = x
  of_add {x y : α} (h : IsNegativeZero (x + y)) : IsNegativeZero x ∧ IsNegativeZero y
  mul {x y : α} (hx : IsZero x) (hy : IsZero y) : IsZero (x * y)
  sqrt : Arith.sqrt (Arith.zero : α) = Arith.zero
  pow (x y : α) (hx : IsZero x) (hy : IsPositive y) : IsZero (Arith.pow x y)
  zero_pow (y : α) (hy : IsPositive y) : Arith.pow Arith.zero y = Arith.zero
  one_div {p : α} (hp : (FloatArith.exactValue p).isAtLeastOne = true) :
    IsPositive (Arith.one / p)
  ofNat {n : Nat} (hpos : 1 ≤ n) (hle : n ≤ Exponent.maxFixed) :
    (FloatArith.exactValue (Arith.ofNat n : α)).isAtLeastOne = true

/-- Packed numbers have neutral zeros, if their power keeps them. -/
theorem zeroArith {α : Type} [FloatArith α] [PackedArith α]
    (hpow : PowKeepsZeros (Arith.pow : α → α → α)) : ZeroArith α where
  one_mul := PackedArith.one_mul
  zero := PackedArith.not_isNegativeZero_zero
  add := PackedArith.add_of_isZero
  of_add := PackedArith.isNegativeZero_of_add
  mul := PackedArith.isZero_mul
  sqrt := PackedArith.sqrt_zero
  pow := hpow.1
  zero_pow := hpow.2
  one_div := PackedArith.isPositive_one_div
  ofNat := PackedArith.isAtLeastOne_ofNat

/-! ## Insertion -/

/-- The second list is the first with zeros put into it, in any places. -/
inductive Padded {α : Type} [FloatArith α] : List α → List α → Prop
  | nil : Padded [] []
  | keep (x : α) {values padded : List α} (h : Padded values padded) :
      Padded (x :: values) (x :: padded)
  | insert {z : α} (hz : IsZero z) {values padded : List α} (h : Padded values padded) :
      Padded values (z :: padded)

namespace Padded

variable {α : Type} [FloatArith α] {values padded : List α}

/-- Nothing but zeros is an empty list with zeros put into it. -/
theorem of_zeros (h : ∀ x ∈ values, IsZero x) : Padded [] values := by
  induction values with
  | nil => exact .nil
  | cons x values ih =>
      exact .insert (h x List.mem_cons_self) (ih fun y hy => h y (List.mem_cons_of_mem x hy))

theorem map (h : Padded values padded) {f : α → α} (hf : ∀ x, IsZero x → IsZero (f x)) :
    Padded (values.map f) (padded.map f) := by
  induction h with
  | nil => exact .nil
  | keep x _ ih => exact .keep (f x) ih
  | insert hz _ ih => exact .insert (hf _ hz) ih

end Padded

namespace Norm

section Laws

variable {α : Type} [FloatArith α] [ZeroArith α]

/-! ## Powers -/

/-- One round of repeated squaring.  The result is one as long as it has not taken in a base. -/
theorem isZero_round {result base : α} {n : Nat}
    (h : IsZero base ∧ (IsZero result ∨ result = Arith.one ∧ 0 < n)) :
    IsZero (if n / 2 = 0 then base else base * base) ∧
      (IsZero (if n % 2 = 1 then result * base else result) ∨
        (if n % 2 = 1 then result * base else result) = Arith.one ∧ 0 < n / 2) := by
  obtain ⟨hbase, hresult⟩ := h
  constructor
  · split
    · exact hbase
    · exact ZeroArith.mul hbase hbase
  · rcases hresult with hzero | ⟨rfl, hpos⟩
    · left
      split
      · exact ZeroArith.mul hzero hbase
      · exact hzero
    · rcases Nat.mod_two_eq_zero_or_one n with heven | hodd
      · exact .inr ⟨if_neg (by omega), by omega⟩
      · rw [if_pos hodd, LawfulOne.one_mul]
        exact .inl hbase

theorem isZero_natPow {x : α} (hx : IsZero x) {n : Nat} (hn : 1 ≤ n) : IsZero (natPow x n) := by
  obtain ⟨last, -, hlast⟩ := natPowFrom_invariant
    (P := fun result base n => IsZero base ∧ (IsZero result ∨ result = Arith.one ∧ 0 < n))
    (fun _ _ _ _ => isZero_round)
    (⟨hx, .inr ⟨rfl, hn⟩⟩ : IsZero x ∧ (IsZero Arith.one ∨ Arith.one = Arith.one ∧ 0 < n))
  exact hlast.resolve_right fun h => absurd h.2 (by decide)

theorem isZero_power {exponent : Exponent α} (h : Accepted exponent) {x : α} (hx : IsZero x) :
    IsZero (power exponent x) := by
  cases h with
  | fixed hpos hle => exact isZero_natPow hx hpos
  | general hp => exact ZeroArith.pow x _ hx (isPositive_of_isAtLeastOne hp)

/-! ## Sums -/

/-- Zeros change no sum that is not the negative zero, and it does not become that. -/
theorem foldl_padded {values padded : List α} (h : Padded values padded) {total : α}
    (htotal : ¬ IsNegativeZero total) :
    padded.foldl (fun total x => total + x) total =
      values.foldl (fun total x => total + x) total := by
  induction h generalizing total with
  | nil => rfl
  | keep x _ ih => exact ih fun h => htotal (ZeroArith.of_add h).1
  | insert hz _ ih =>
      rw [List.foldl_cons, ZeroArith.add htotal hz]
      exact ih htotal

theorem sum_padded {values padded : List α} (h : Padded values padded) :
    sum padded = sum values :=
  foldl_padded h ZeroArith.zero

/-! ## Roots -/

theorem root_zero {exponent : Exponent α} (h : Accepted exponent) :
    root exponent Arith.zero = Arith.zero := by
  cases h with
  | fixed hpos hle =>
      simp only [root]
      unfold fixedRoot
      split
      · rfl
      · exact ZeroArith.sqrt
      · exact ZeroArith.zero_pow _ (ZeroArith.one_div (ZeroArith.ofNat hpos hle))
  | general hp => exact ZeroArith.zero_pow _ (ZeroArith.one_div hp)

/-! ## Norms -/

theorem compute_padded {exponent : Exponent α} (h : Accepted exponent) {values padded : List α}
    (hpadded : Padded values padded) : compute padded exponent = compute values exponent := by
  rw [compute_eq_root h, compute_eq_root h, sum_padded (hpadded.map fun x => isZero_power h)]

theorem compute_zeros {exponent : Exponent α} (h : Accepted exponent) {values : List α}
    (hzeros : ∀ x ∈ values, IsZero x) : compute values exponent = Arith.zero := by
  rw [compute_padded h (.of_zeros hzeros), compute_eq_root h]
  exact root_zero h

theorem apply_padded (policy : ExponentPolicy) (index : Nat) {values padded : List α}
    (h : Padded values padded) (rest : List (Operand α)) :
    apply policy index (.vector padded :: rest) = apply policy index (.vector values :: rest) := by
  rw [apply_cons, apply_cons]
  cases hexponent : exponent? policy index (.vector [] :: rest) with
  | none => rfl
  | some exponent => exact compute_padded (accepted_of_exponent? hexponent) h

theorem value_padded (policy : ExponentPolicy) {values padded : List α} (h : Padded values padded)
    (p : Option α) : value policy padded p = value policy values p := by
  cases p with
  | none => exact apply_padded policy 0 h []
  | some p => exact apply_padded policy 1 h [.scalar p]

theorem value_zeros (policy : ExponentPolicy) {values : List α} (hzeros : ∀ x ∈ values, IsZero x)
    {p : Option α} (hp : ∀ q ∈ p, (Exponent.classify policy q).isSome = true) :
    value policy values p = Arith.zero := by
  cases p with
  | none => exact compute_zeros accepted_two hzeros
  | some p =>
      obtain ⟨exponent, hexponent⟩ := Option.isSome_iff_exists.mp (hp p rfl)
      rw [value_some, hexponent]
      exact compute_zeros (accepted_of_classify hexponent) hzeros

end Laws

/-- What is said of the norm over numbers of type `α`.  Equality of numbers is equality of bits, all
NaNs being one. -/
structure ZerosNeutral (α : Type) [FloatArith α] : Prop where
  /-- A call of the norm itself, through any position, with any exponent or with none. -/
  direct : ∀ (policy : ExponentPolicy) (index : Nat) (values padded : List α)
    (rest : List (Operand α)), Padded values padded →
      apply policy index (.vector padded :: rest) = apply policy index (.vector values :: rest)
  /-- Two calls with the same exponent, in one session or in two. -/
  session : ∀ (s s' : Session α) (policy : ExponentPolicy) (source source' : String)
    (values padded : List α) (p : Option α), s.CallsNorm policy source values p →
      s'.CallsNorm policy source' padded p → Padded values padded →
        s'.evaluate source' = s.evaluate source
  /-- An empty vector, or one of zeros alone. -/
  zeros : ∀ (policy : ExponentPolicy) (values : List α) (p : Option α),
    (∀ x ∈ values, IsZero x) → (∀ q ∈ p, (Exponent.classify policy q).isSome = true) →
      value policy values p = Arith.zero ∧
        ∀ (s : Session α) (source : String), s.CallsNorm policy source values p →
          s.evaluate source = .ok Arith.zero

theorem zerosNeutral {α : Type} [FloatArith α] [ZeroArith α] : ZerosNeutral α where
  direct policy index _ _ rest h := apply_padded policy index h rest
  session := by
    intro s s' policy source source' values padded p hcall hcall' hpadded
    rw [hcall.evaluate, hcall'.evaluate, value_padded policy hpadded]
  zeros := by
    intro policy values p hzeros hp
    have hvalue := value_zeros policy hzeros hp
    refine ⟨hvalue, fun s source hcall => ?_⟩
    rw [hcall.evaluate, hvalue]

/-- **Zeros are neutral.**  With every power that keeps zeros, a norm stays as it is if zeros of
either sign are put into the vector, and the norm of no numbers or of zeros alone is the positive
zero, for both types of numbers, both policies and every accepted exponent. -/
theorem zeros_are_neutral {pow : Float → Float → Float} {pow' : Float32 → Float32 → Float32}
    (hpow : PowKeepsZeros pow) (hpow' : PowKeepsZeros pow') :
    @ZerosNeutral Float (.withPow pow) ∧ @ZerosNeutral Float32 (.withPow pow') :=
  ⟨@zerosNeutral _ (.withPow pow) (@zeroArith _ (.withPow pow) (packedDouble pow) hpow),
    @zerosNeutral _ (.withPow pow') (@zeroArith _ (.withPow pow') (packedSingle pow') hpow')⟩

/-- The power of one and of zeros with odd exponents, and the root of one: the base itself. -/
def basePow {α : Type} (x _y : α) : α :=
  x

theorem powKeepsZeros_basePow {α : Type} [FloatArith α] :
    PowKeepsZeros (basePow : α → α → α) :=
  ⟨fun _ _ hx _ => hx, fun _ _ => rfl⟩

/-- The norm with exponent 33, which takes the general way, of one alone and of one between a
negative and a positive zero: it is one. -/
theorem norm_of_one_among_zeros :
    PowKeepsZeros (basePow : Float → Float → Float) ∧
      PowKeepsZeros (basePow : Float32 → Float32 → Float32) ∧
      let _ : FloatArith Float := .withPow basePow
      let s := (Host.empty.run [.addBuiltins .integerOnly] : Host Float).session
      s.CallsNorm .integerOnly "norm([1],33)" [1.0] (some 33.0) ∧
        s.CallsNorm .integerOnly "norm([-0.0,1,0],33)" [-0.0, 1.0, 0.0] (some 33.0) ∧
        Padded [1.0] [-0.0, 1.0, 0.0] ∧
        s.evaluate "norm([1],33)" = .ok 1.0 ∧ s.evaluate "norm([-0.0,1,0],33)" = .ok 1.0 := by
  obtain ⟨⟨-, hneutral, -⟩, -⟩ := zeros_are_neutral powKeepsZeros_basePow powKeepsZeros_basePow
  have hparse : Call.parse "norm([1],33)" = .ok ⟨"norm", [.vector [1.0], .number 33.0]⟩ := by
    decide +kernel
  have hparse' : Call.parse "norm([-0.0,1,0],33)" =
      .ok ⟨"norm", [.vector [-0.0, 1.0, 0.0], .number 33.0]⟩ := by
    decide +kernel
  have hnegative : IsZero (-0.0 : Float) := ⟨true, 1074, by decide +kernel⟩
  have hpositive : IsZero (0.0 : Float) := ⟨false, 1074, by decide +kernel⟩
  refine ⟨powKeepsZeros_basePow, powKeepsZeros_basePow, ?_⟩
  intro arith s
  have hcall : s.CallsNorm .integerOnly "norm([1],33)" [1.0] (some 33.0) :=
    ⟨function?_norm .integerOnly [], _, hparse, rfl⟩
  have hcall' : s.CallsNorm .integerOnly "norm([-0.0,1,0],33)" [-0.0, 1.0, 0.0] (some 33.0) :=
    ⟨function?_norm .integerOnly [], _, hparse', rfl⟩
  have hpadded : Padded [1.0] [-0.0, 1.0, 0.0] := by
    refine .insert ?_ (.keep 1.0 (.insert ?_ .nil))
    · exact hnegative
    · exact hpositive
  -- One of the two norms is computed, and the other is the same.
  have hone : s.evaluate "norm([1],33)" = .ok 1.0 := by
    have hvalue : value .integerOnly [1.0] (some 33.0) = (1.0 : Float) := by decide +kernel
    rw [hcall.evaluate, hvalue]
  exact ⟨hcall, hcall', hpadded, hone,
    (hneutral s s _ _ _ _ _ _ hcall hcall' hpadded).trans hone⟩

end Norm

end PNorm
