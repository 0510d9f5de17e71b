import PNorm.Proofs.Norm.Reference

/-!
# Powers by repeated squaring

Where products can be regrouped, repeated squaring is the product of `n` equal
factors.  The loop of `natPow` keeps `result * base ^ n`, the power with all that is
still to come (`natPowFrom_eq`).

The laws that this needs are those of `LawfulMul`, and floating-point numbers do not
have them.  What can be said of their powers is in `PNorm.Proofs.Norm.Growth`.
-/

namespace PNorm

/-- Arithmetic in which products can be regrouped and factors of one left out. -/
class LawfulMul (α : Type) [Arith α] : Prop extends LawfulOne α where
  mul_assoc (x y z : α) : x * y * z = x * (y * z)
  mul_one (x : α) : x * Arith.one = x

section Product

variable {α : Type} [Arith α]

/-- The product of `n` factors `x`. -/
def product (x : α) : Nat → α
  | 0 => Arith.one
  | n + 1 => product x n * x

theorem product_one [LawfulOne α] (x : α) : product x 1 = x :=
  LawfulOne.one_mul x

variable [LawfulMul α]

private theorem mul_product (x : α) (n : Nat) : x * product x n = product x (n + 1) := by
  induction n with
  | zero => exact (LawfulMul.mul_one x).trans (product_one x).symm
  | succ n ih =>
      calc x * (product x n * x) = x * product x n * x := (LawfulMul.mul_assoc ..).symm
        _ = product x (n + 1) * x := by rw [ih]
        _ = product x (n + 2) := rfl

/-- Every two factors can be multiplied first. -/
theorem product_mul_self (x : α) (n : Nat) : product (x * x) n = product x (2 * n) := by
  induction n with
  | zero => rfl
  | succ n ih =>
      calc product (x * x) n * (x * x) = product x (2 * n) * x * x := by
            rw [ih, LawfulMul.mul_assoc]
        _ = product x (2 * (n + 1)) := rfl

private theorem product_eq_of_odd (x : α) {n : Nat} (hn : n % 2 = 1) :
    product x n = x * product (x * x) (n / 2) := by
  have hsplit : n = 2 * (n / 2) + 1 := by omega
  rw [product_mul_self, mul_product, ← hsplit]

private theorem product_eq_of_even (x : α) {n : Nat} (hn : n % 2 = 0) :
    product x n = product (x * x) (n / 2) := by
  have hsplit : n = 2 * (n / 2) := by omega
  rw [product_mul_self, ← hsplit]

/-- What the loop has and what is still to come is the whole product. -/
theorem natPowFrom_eq (result base : α) (n : Nat) :
    natPowFrom result base n = result * product base n := by
  induction n using Nat.strong_induction_on generalizing result base with
  | h n ih =>
      by_cases hzero : n = 0
      · rw [hzero, natPowFrom_zero]
        exact (LawfulMul.mul_one result).symm
      · have hlt : n / 2 < n := Nat.div_lt_self (Nat.pos_of_ne_zero hzero) (by decide)
        -- The last squaring is left out, where nothing is multiplied with it any more.
        have hbase : product (if n / 2 = 0 then base else base * base) (n / 2) =
            product (base * base) (n / 2) := by
          by_cases hlast : n / 2 = 0
          · rw [hlast]
            rfl
          · rw [if_neg hlast]
        rw [natPowFrom_round _ _ hzero, ih _ hlt, hbase]
        rcases Nat.mod_two_eq_zero_or_one n with hn | hn
        · rw [if_neg (by omega), product_eq_of_even base hn]
        · rw [if_pos hn, product_eq_of_odd base hn, LawfulMul.mul_assoc]

/-- Repeated squaring is the product of `n` equal factors. -/
theorem natPow_eq_product (x : α) (n : Nat) : natPow x n = product x n := by
  rw [natPow, natPowFrom_eq, LawfulOne.one_mul]

end Product

end PNorm
