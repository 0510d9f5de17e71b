import PNorm.Number.Arith

/-!
# Powers with a constant exponent

`natPow x n` multiplies `x` with itself `n` times by repeated squaring.  The
order of the multiplications matters for floating-point numbers and is part of
the definition; the last squaring is left out, because it would not be used.
-/

namespace PNorm

variable {α : Type}

/-- Continue from `result` with the binary digits of `n`, lowest first, where `base` belongs to the
lowest. -/
def natPowFrom [Mul α] (result base : α) (n : Nat) : α :=
  if hzero : n = 0 then result
  else
    let result := if n % 2 = 1 then result * base else result
    let base := if n / 2 = 0 then base else base * base
    natPowFrom result base (n / 2)
termination_by n
decreasing_by exact Nat.div_lt_self (Nat.pos_of_ne_zero hzero) (by decide)

/-- The power `x ^ n`. -/
def natPow [Arith α] (x : α) (n : Nat) : α :=
  natPowFrom Arith.one x n

@[simp] theorem natPowFrom_zero [Mul α] (result base : α) : natPowFrom result base 0 = result := by
  rw [natPowFrom, dif_pos rfl]

/-- One round of the loop. -/
theorem natPowFrom_round [Mul α] (result base : α) {n : Nat} (hn : n ≠ 0) :
    natPowFrom result base n =
      natPowFrom (if n % 2 = 1 then result * base else result)
        (if n / 2 = 0 then base else base * base) (n / 2) := by
  rw [natPowFrom, dif_neg hn]

@[simp] theorem natPow_zero [Arith α] (x : α) : natPow x 0 = Arith.one :=
  natPowFrom_zero _ _

end PNorm
