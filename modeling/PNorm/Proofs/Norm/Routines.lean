import Mathlib.Analysis.SpecialFunctions.Pow.Real
import PNorm.Norm.Table
import PNorm.Proofs.Norm.Power
import PNorm.Proofs.Norm.Ways

/-!
# The routines and the formula

The norm with exponent `p` is the `1/p`-th power of the sum of the `p`-th powers.
The routines of the whole exponents up to 32 do not compute it that way: they square
repeatedly, and for the exponents one and two they do not take a general root.  In
floating-point numbers the two ways round differently.  In exact arithmetic they
agree (`routines_compute_the_formula`), and so do they for the exponents without a
routine, where there is only the formula.

What exact means is said by `ExactArith`, and real numbers are an instance.  No law of
addition is among its laws: both ways add the same powers in the same order.
-/

namespace PNorm

/-- Arithmetic that does not round, as far as norms can tell: powers with whole exponents are
products, the root of the first power is no root, and a square root is the power with one half. -/
class ExactArith (α : Type) [Arith α] : Prop extends LawfulMul α where
  one_div_one : (Arith.one : α) / Arith.ofNat 1 = Arith.ofNat 1
  pow_ofNat (x : α) {n : Nat} (hn : 1 ≤ n) : Arith.pow x (Arith.ofNat n) = product x n
  sqrt_eq_pow (x : α) : Arith.sqrt x = Arith.pow x (Arith.one / Arith.ofNat 2)

namespace Norm

/-! ## The formula -/

section Formula

variable {α : Type} [Arith α] [ExactArith α]

theorem natPow_eq_pow (x : α) {n : Nat} (hn : 1 ≤ n) :
    natPow x n = Arith.pow x (Arith.ofNat n) := by
  rw [natPow_eq_product, ExactArith.pow_ofNat x hn]

/-- The first root leaves a number as it is. -/
theorem pow_one_div_one (x : α) : Arith.pow x (Arith.one / Arith.ofNat 1) = x := by
  rw [ExactArith.one_div_one, ExactArith.pow_ofNat x le_rfl, product_one]

/-- Each of the three ways to take a root is a power with one over the exponent. -/
theorem fixedRoot_eq_pow {n : Nat} (sum : α) :
    fixedRoot n sum = Arith.pow sum (Arith.one / Arith.ofNat n) := by
  unfold fixedRoot
  split
  · exact (pow_one_div_one sum).symm
  · exact ExactArith.sqrt_eq_pow sum
  · rfl

/-- A routine computes the formula. -/
theorem fixed_eq_general {n : Nat} (hn : 1 ≤ n) (values : List α) :
    fixed n values = general (Arith.ofNat n) values := by
  simp only [fixed, general, fixedRoot_eq_pow, natPow_eq_pow _ hn]

theorem compute_fixed_eq_general (n : Nat) (values : List α) :
    compute values (.fixed n) = general (Arith.ofNat n) values := by
  rw [compute]
  by_cases hn : 1 ≤ n ∧ n ≤ Exponent.maxFixed
  · rw [if_pos hn]
    exact fixed_eq_general hn.1 values
  · rw [if_neg hn]

end Formula

/-! ## The table -/

theorem tabulated_eq : tabulated = List.range' 1 Exponent.maxFixed := by decide

private theorem toNat_sub_one {n : USize} (hn : 1 ≤ n.toNat) : (n - 1).toNat = n.toNat - 1 := by
  rw [USize.toNat_sub_of_le, USize.toNat_one]
  rwa [USize.le_iff_toNat_le, USize.toNat_one]

/-- One less than zero is a position that no table has. -/
theorem maxFixed_le_toNat_sub_one {n : USize} (hn : n.toNat = 0) :
    Exponent.maxFixed ≤ (n - 1).toNat := by
  have hsize := USize.le_size
  rw [USize.size] at hsize
  rw [USize.toNat_sub, USize.toNat_one, hn, Nat.add_zero, Nat.mod_eq_of_lt (by omega),
    Exponent.maxFixed]
  omega

namespace Prepared

variable {α : Type}

section Arith

variable [Arith α] (signature : Signature) (policy : ExponentPolicy)

/-- The table has the routine of every exponent within the bounds, and no other. -/
theorem routine?_new (n : USize) :
    (new signature policy : Prepared α).routine? n =
      if 1 ≤ n.toNat ∧ n.toNat ≤ Exponent.maxFixed then some (fixed n.toNat) else none := by
  simp only [routine?, new, tabulated_eq, List.getElem?_toArray, List.getElem?_map]
  by_cases hzero : n.toNat = 0
  · rw [if_neg (by omega), List.getElem?_eq_none]
    · rfl
    · rw [List.length_range']
      exact maxFixed_le_toNat_sub_one hzero
  · rw [toNat_sub_one (by omega)]
    by_cases hn : n.toNat ≤ Exponent.maxFixed
    · rw [if_pos ⟨by omega, hn⟩, List.getElem?_range' (by omega), Option.map_some,
        show 1 + 1 * (n.toNat - 1) = n.toNat by omega]
    · rw [if_neg (by omega), List.getElem?_eq_none]
      · rfl
      · rw [List.length_range']
        omega

/-- Looking a routine up computes the same as comparing the exponent with its bounds. -/
theorem compute_new (values : List α) (n : USize) :
    (new signature policy).compute values n = Norm.compute values (.fixed n.toNat) := by
  rw [compute, routine?_new, Norm.compute]
  split_ifs <;> rfl

end Arith

section FloatArith

variable [FloatArith α]

/-- An exponent with a routine is a word. -/
theorem le_of_exponent? {policy : ExponentPolicy} {index : Nat} {operands : List (Operand α)}
    {n : Nat} (hn : exponent? policy index operands = some (.fixed n)) :
    n ≤ Exponent.maxFixed := by
  cases accepted_of_exponent? hn with
  | fixed hpos hle => exact hle

/-- The norm with its table is the norm that sessions have. -/
theorem function_new (signature : Signature) (policy : ExponentPolicy) :
    (new signature policy : Prepared α).function = Norm.function signature policy := by
  have happly : (new signature policy : Prepared α).apply = Norm.apply policy := by
    funext index operands
    rw [apply, Norm.apply, show (new signature policy : Prepared α).policy = policy from rfl]
    cases operands.head?.bind Operand.vector? with
    | none => rfl
    | some values =>
        cases hexponent : exponent? policy index operands with
        | none => rfl
        | some exponent =>
            cases exponent with
            | general p => rfl
            | fixed n =>
                have hn := le_of_exponent? hexponent
                have hword : (USize.ofNat n).toNat = n :=
                  USize.toNat_ofNat_of_lt_32 (by rw [Exponent.maxFixed] at hn; omega)
                exact (compute_new signature policy values _).trans (by rw [hword])
  exact congrArg (Function.mk signature) happly

end FloatArith

end Prepared

/-! ## Both together -/

/-- **In exact arithmetic every whole exponent gives the formula.**  Under either policy the table
has a routine for the words from 1 to 32, which is the routine of that exponent, and for no other
word; and for every word and every vector what is computed is the root of the sum of powers, as
the formula has it.  The same holds of natural numbers too large for a word. -/
theorem routines_compute_the_formula {α : Type} [Arith α] [ExactArith α] (signature : Signature)
    (policy : ExponentPolicy) (values : List α) :
    (∀ n : USize,
      (Prepared.new signature policy : Prepared α).routine? n =
        (if 1 ≤ n.toNat ∧ n.toNat ≤ Exponent.maxFixed then some (fixed n.toNat) else none) ∧
      (Prepared.new signature policy).compute values n = general (Arith.ofNat n.toNat) values) ∧
    ∀ n : Nat, compute values (.fixed n) = general (Arith.ofNat n) values := by
  refine ⟨?_, fun n => compute_fixed_eq_general n values⟩
  intro n
  refine ⟨Prepared.routine?_new signature policy n, ?_⟩
  rw [Prepared.compute_new, compute_fixed_eq_general]

/-! ## Real numbers -/

section Real

/-- The arithmetic of real numbers. -/
noncomputable abbrev realArith : Arith ℝ where
  zero := 0
  one := 1
  ofNat n := n
  sqrt := Real.sqrt
  pow x y := x ^ y

attribute [local instance] realArith

private theorem product_real (x : ℝ) (n : Nat) : product x n = x ^ n := by
  induction n with
  | zero => exact (pow_zero x).symm
  | succ n ih =>
      calc product x n * x = x ^ n * x := by rw [ih]
        _ = x ^ (n + 1) := (pow_succ x n).symm

theorem exactArith_real : ExactArith ℝ where
  one_mul := one_mul
  mul_assoc := mul_assoc
  mul_one := mul_one
  one_div_one := by
    change (1 : ℝ) / (1 : Nat) = (1 : Nat)
    simp
  pow_ofNat := by
    intro x n _
    exact (Real.rpow_natCast x n).trans (product_real x n).symm
  sqrt_eq_pow := by
    intro x
    change √x = x ^ ((1 : ℝ) / (2 : Nat))
    rw [Real.sqrt_eq_rpow, Nat.cast_ofNat]

/-- The real norm of `[2, -1, 2]` with exponent three, by the third routine and by the formula: the
elements are taken with their signs. -/
theorem third_norm_of_reals :
    ((Prepared.new signature .integerOnly).compute [2, -1, 2] 3 : ℝ) =
        general (Arith.ofNat 3) [2, -1, 2] ∧
      (general (Arith.ofNat 3) [2, -1, 2] : ℝ) = 15 ^ (1 / 3 : ℝ) := by
  have hexact := exactArith_real
  have hthree : (3 : USize).toNat = 3 := USize.toNat_ofNat_of_lt_32 (by decide)
  have hroutine := (routines_compute_the_formula signature .integerOnly ([2, -1, 2] : List ℝ)).1 3
  rw [hthree] at hroutine
  refine ⟨hroutine.2, ?_⟩
  change ((0 : ℝ) + 2 ^ ((3 : Nat) : ℝ) + (-1) ^ ((3 : Nat) : ℝ) + 2 ^ ((3 : Nat) : ℝ)) ^
    ((1 : ℝ) / (3 : Nat)) = _
  simp only [Real.rpow_natCast]
  norm_num

end Real

end Norm

end PNorm
