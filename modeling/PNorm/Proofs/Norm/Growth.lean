import PNorm.Proofs.Norm.Routines
import PNorm.Proofs.Number.Magnitude

/-!
# How large repeated squaring gets

The loop of `natPow` is taken apart into its states here, so that something can be said
of every value that its two variables take, and not only of the result.

Where products can be regrouped, both variables hold powers of `x`.  With `r` and `b` for
their exponents and `m` for what is left of the exponent `n`, every round keeps
`r + b * m = n` (`Reaches.exponents`).  So the exponent of the result cannot pass `n`, and
that of the base cannot as long as something is left.  The last round would square the
base once more, but leaves that out: the base is not needed any more, and it would be
a power beyond `x ^ n`.

From that it follows that no variable gets larger than the result, if `x` is not below
one.  This part needs no regrouping.  It is enough that a product is not below its factors
(`GrowthMeasure`), and rounded products are not.  So it holds of floating-point numbers as
well: where a variable overflows, the result does.  The factor `slack` bounds what
rounding adds to each product, and gives the distance from the exact power.
-/

namespace PNorm

/-! ## The states of the loop -/

/-- The variables of the loop.  Each of them is written once in a round at most, so that the states
before and after every round show all values that they take. -/
structure PowState (α : Type) where
  result : α
  base : α
  /-- The digits of the exponent that are still to come. -/
  rest : Nat
  deriving DecidableEq, Repr

namespace PowState

section Mul

variable {α : Type} [Mul α]

/-- One round, unless no digit is left. -/
def next? (s : PowState α) : Option (PowState α) :=
  if s.rest = 0 then none
  else some
    { result := if s.rest % 2 = 1 then s.result * s.base else s.result
      base := if s.rest / 2 = 0 then s.base else s.base * s.base
      rest := s.rest / 2 }

/-- The second state comes after the first, behind any number of rounds. -/
def Reaches (s t : PowState α) : Prop :=
  Relation.ReflTransGen (fun s t => s.next? = some t) s t

/-- The power that the loop goes on to compute. -/
def power (s : PowState α) : α :=
  natPowFrom s.result s.base s.rest

theorem next?_eq_none_iff {s : PowState α} : s.next? = none ↔ s.rest = 0 := by
  simp [next?]

theorem next?_eq_some_iff {s t : PowState α} :
    s.next? = some t ↔ s.rest ≠ 0 ∧
      t = { result := if s.rest % 2 = 1 then s.result * s.base else s.result
            base := if s.rest / 2 = 0 then s.base else s.base * s.base
            rest := s.rest / 2 } := by
  unfold next?
  by_cases hrest : s.rest = 0
  · simp [hrest]
  · simp [hrest, eq_comm]

theorem power_of_next? {s t : PowState α} (h : s.next? = some t) : t.power = s.power := by
  obtain ⟨hrest, rfl⟩ := next?_eq_some_iff.mp h
  exact (natPowFrom_round s.result s.base hrest).symm

/-- Every round leaves the power as it is. -/
theorem Reaches.power {s t : PowState α} (h : s.Reaches t) : t.power = s.power := by
  induction h with
  | refl => rfl
  | tail _ hnext ih => exact (power_of_next? hnext).trans ih

/-- The loop ends, with the power as its result. -/
theorem exists_last (s : PowState α) :
    ∃ last, s.Reaches last ∧ last.next? = none ∧ last.result = s.power := by
  obtain ⟨result, base, rest⟩ := s
  induction rest using Nat.strong_induction_on generalizing result base with
  | h rest ih =>
      by_cases hrest : rest = 0
      · subst hrest
        exact ⟨_, .refl, next?_eq_none_iff.mpr rfl, (natPowFrom_zero result base).symm⟩
      · have hlt : rest / 2 < rest := Nat.div_lt_self (Nat.pos_of_ne_zero hrest) (by decide)
        have hnext := (next?_eq_some_iff (s := ⟨result, base, rest⟩)).mpr ⟨hrest, rfl⟩
        obtain ⟨last, hreaches, hlast, hresult⟩ := ih (rest / 2) hlt _ _
        exact ⟨last, .head hnext hreaches, hlast, hresult.trans (power_of_next? hnext)⟩

end Mul

/-! ## Exponents -/

section Exponents

variable {α : Type}

/-- Both variables stand for powers of the first base.  `R` and `B` say what it means for the result
and for the base to stand for the power with an exponent. -/
structure Exponents (R B : α → Nat → Prop) (n : Nat) (s : PowState α) (r b : Nat) : Prop where
  result : R s.result r
  base : B s.base b
  total : r + b * s.rest = n
  pos : 1 ≤ b
  le : b ≤ n

theorem Exponents.result_le {R B : α → Nat → Prop} {n r b : Nat} {s : PowState α}
    (h : Exponents R B n s r b) : r ≤ n :=
  h.total ▸ Nat.le_add_right r _

/-- The lowest digit of what is left apart from the others, which count twice. -/
private theorem share_eq (b rest : Nat) :
    b * rest = b * (rest % 2) + 2 * (b * (rest / 2)) := by
  conv_lhs => rw [← Nat.mod_add_div rest 2]
  ring

/-- What the result takes in is what the base, squared or not, no longer stands for. -/
private theorem total_next (r b rest : Nat) :
    (if rest % 2 = 1 then r + b else r) + (if rest / 2 = 0 then b else 2 * b) * (rest / 2) =
      r + b * rest := by
  have hbase : (if rest / 2 = 0 then b else 2 * b) * (rest / 2) = 2 * (b * (rest / 2)) := by
    by_cases hlast : rest / 2 = 0
    · rw [if_pos hlast, hlast]
      rfl
    · rw [if_neg hlast]
      ring
  rw [hbase, share_eq b rest]
  rcases Nat.mod_two_eq_zero_or_one rest with heven | hodd
  · rw [if_neg (by omega), heven, Nat.mul_zero, Nat.zero_add]
  · rw [if_pos hodd, hodd, Nat.mul_one, Nat.add_assoc]

/-- One round: the exponent of the base is added to that of the result, or doubled, or both. -/
theorem Exponents.next [Mul α] {R B : α → Nat → Prop} {n r b : Nat} {s t : PowState α}
    (hmul : ∀ x y i j, R x i → B y j → R (x * y) (i + j))
    (hsquare : ∀ x i, B x i → B (x * x) (2 * i))
    (h : Exponents R B n s r b) (hnext : s.next? = some t) :
    ∃ r' b', Exponents R B n t r' b' := by
  obtain ⟨hrest, rfl⟩ := next?_eq_some_iff.mp hnext
  refine ⟨if s.rest % 2 = 1 then r + b else r, if s.rest / 2 = 0 then b else 2 * b,
    ?_, ?_, ?_, ?_, ?_⟩
  · -- The result takes in the base, or stays.
    change R (if s.rest % 2 = 1 then s.result * s.base else s.result) _
    split
    · exact hmul _ _ _ _ h.result h.base
    · exact h.result
  · -- The base is squared, unless nothing is left.
    change B (if s.rest / 2 = 0 then s.base else s.base * s.base) _
    split
    · exact h.base
    · exact hsquare _ _ h.base
  · exact (total_next r b s.rest).trans h.total
  · have hpos := h.pos
    split <;> omega
  · by_cases hlast : s.rest / 2 = 0
    · rw [if_pos hlast]
      exact h.le
    · -- A digit is left, and it stands for at least twice the exponent of the base.
      rw [if_neg hlast]
      have htotal := h.total
      have hshare := share_eq b s.rest
      have hdouble : b ≤ b * (s.rest / 2) := Nat.le_mul_of_pos_right b (Nat.pos_of_ne_zero hlast)
      omega

end Exponents

section Arith

variable {α : Type} [Arith α]

/-- The state in which the loop for a power starts. -/
def start (x : α) (n : Nat) : PowState α :=
  ⟨Arith.one, x, n⟩

theorem power_start (x : α) (n : Nat) : (start x n).power = natPow x n :=
  rfl

theorem Reaches.exponents {R B : α → Nat → Prop} {x : α} {n : Nat} (hn : 1 ≤ n)
    (hone : R Arith.one 0) (hbase : B x 1)
    (hmul : ∀ x y i j, R x i → B y j → R (x * y) (i + j))
    (hsquare : ∀ x i, B x i → B (x * x) (2 * i))
    {s : PowState α} (h : (start x n).Reaches s) : ∃ r b, Exponents R B n s r b := by
  induction h with
  | refl =>
      have htotal : 0 + 1 * n = n := by omega
      exact ⟨0, 1, hone, hbase, htotal, le_rfl, hn⟩
  | tail _ hnext ih =>
      obtain ⟨r, b, hexponents⟩ := ih
      exact hexponents.next hmul hsquare hnext

end Arith

end PowState

/-! ## Exact powers -/

section Product

variable {α : Type} [Arith α] [LawfulMul α]

private theorem product_add (x : α) (i j : Nat) :
    product x (i + j) = product x i * product x j := by
  induction j with
  | zero => exact (LawfulMul.mul_one _).symm
  | succ j ih =>
      calc product x (i + j) * x = product x i * product x j * x := by rw [ih]
        _ = product x i * (product x j * x) := LawfulMul.mul_assoc ..

/-- Both variables hold powers whose exponents do not pass `n`. -/
theorem PowState.Reaches.powers {x : α} {n : Nat} (hn : 1 ≤ n) {s : PowState α}
    (h : (start x n).Reaches s) :
    (∃ k ≤ n, s.result = product x k) ∧ ∃ k ≤ n, s.base = product x k := by
  have hmul : ∀ y z i j, y = product x i → z = product x j → y * z = product x (i + j) := by
    rintro _ _ i j rfl rfl
    exact (product_add x i j).symm
  have hsquare : ∀ y i, y = product x i → y * y = product x (2 * i) := by
    intro y i hy
    rw [two_mul]
    exact hmul y y i i hy hy
  obtain ⟨r, b, hexponents⟩ := h.exponents (R := fun y k => y = product x k)
    (B := fun y k => y = product x k) hn rfl (product_one x).symm hmul hsquare
  exact ⟨⟨r, hexponents.result_le, hexponents.result⟩, b, hexponents.le, hexponents.base⟩

end Product

/-! ## Measures -/

/-- A measure of numbers.  From one on, a product is not below its factors, and above the product of
their measures by at most the factor `slack`. -/
structure GrowthMeasure {α β : Type} [Arith α] [CommSemiring β] [LinearOrder β] (size : α → β)
    (slack : β) : Prop where
  one : size Arith.one = 1
  one_le_slack : 1 ≤ slack
  mul : ∀ x y, 1 ≤ size x → 1 ≤ size y →
    ProductBounds slack (size x) (size y) (size (x * y))

section Measure

variable {α β : Type} [Arith α] [CommSemiring β] [LinearOrder β] {size : α → β} {slack : β}

/-- A measure without rounding. -/
theorem growthMeasure_of_mul [IsStrictOrderedRing β] (hone : size Arith.one = 1)
    (hmul : ∀ x y, size (x * y) = size x * size y) : GrowthMeasure size 1 where
  one := hone
  one_le_slack := le_rfl
  mul := by
    intro x y hx hy
    rw [hmul]
    refine ⟨le_mul_of_one_le_right ?_ hy, le_mul_of_one_le_left ?_ hx, (mul_one _).ge⟩
    · exact zero_le_one.trans hx
    · exact zero_le_one.trans hy

namespace PowState

/-- In every state neither variable is below one, and after the last round the base is not above the
result. -/
structure Grown (size : α → β) (s : PowState α) : Prop where
  result : 1 ≤ size s.result
  base : 1 ≤ size s.base
  last : s.rest = 0 → size s.base ≤ size s.result

/-- No round makes a variable smaller. -/
theorem Grown.next (hsize : GrowthMeasure size slack) {s t : PowState α} (h : s.Grown size)
    (hnext : s.next? = some t) :
    t.Grown size ∧ size s.result ≤ size t.result ∧ size s.base ≤ size t.base := by
  obtain ⟨hrest, rfl⟩ := next?_eq_some_iff.mp hnext
  have hmul := hsize.mul s.result s.base h.result h.base
  have hsquare := hsize.mul s.base s.base h.base h.base
  have hresult : size s.result ≤
      size (if s.rest % 2 = 1 then s.result * s.base else s.result) := by
    split
    · exact hmul.left
    · exact le_rfl
  have hbase : size s.base ≤ size (if s.rest / 2 = 0 then s.base else s.base * s.base) := by
    split
    · exact le_rfl
    · exact hsquare.left
  refine ⟨⟨h.result.trans hresult, h.base.trans hbase, ?_⟩, hresult, hbase⟩
  -- The last digit is a one, so the result takes in the base, which is not squared any more.
  intro hlast
  change s.rest / 2 = 0 at hlast
  change size (if s.rest / 2 = 0 then s.base else s.base * s.base) ≤
    size (if s.rest % 2 = 1 then s.result * s.base else s.result)
  rw [if_pos hlast, if_pos (by omega)]
  exact hmul.right

theorem Grown.reaches (hsize : GrowthMeasure size slack) {s t : PowState α} (h : s.Grown size)
    (hreaches : s.Reaches t) :
    t.Grown size ∧ size s.result ≤ size t.result ∧ size s.base ≤ size t.base := by
  induction hreaches with
  | refl => exact ⟨h, le_rfl, le_rfl⟩
  | tail _ hnext ih =>
      obtain ⟨hgrown, hresult, hbase⟩ := ih
      obtain ⟨hgrown', hresult', hbase'⟩ := hgrown.next hsize hnext
      exact ⟨hgrown', hresult.trans hresult', hbase.trans hbase'⟩

/-- No variable is above what the loop ends with. -/
theorem Grown.le_power (hsize : GrowthMeasure size slack) {s : PowState α} (h : s.Grown size) :
    size s.result ≤ size s.power ∧ size s.base ≤ size s.power := by
  obtain ⟨last, hreaches, hlast, hpower⟩ := s.exists_last
  obtain ⟨hgrown, hresult, hbase⟩ := h.reaches hsize hreaches
  rw [← hpower]
  exact ⟨hresult, hbase.trans (hgrown.last (next?_eq_none_iff.mp hlast))⟩

private theorem grown_start (hsize : GrowthMeasure size slack) {x : α} (hx : 1 ≤ size x) {n : Nat}
    (hn : 1 ≤ n) : (start x n).Grown size where
  result := hsize.one.ge
  base := hx
  last := by
    intro hzero
    change n = 0 at hzero
    omega

theorem Reaches.le_natPow (hsize : GrowthMeasure size slack) {x : α} (hx : 1 ≤ size x) {n : Nat}
    (hn : 1 ≤ n) {s : PowState α} (h : (start x n).Reaches s) :
    size s.result ≤ size (natPow x n) ∧ size s.base ≤ size (natPow x n) := by
  obtain ⟨hgrown, -, -⟩ := (grown_start hsize hx hn).reaches hsize h
  rw [← power_start, ← h.power]
  exact hgrown.le_power hsize

/-- A number that is not below one and stays within a bound, also when it is multiplied by `c`. -/
structure Within (size : α → β) (c bound : β) (x : α) : Prop where
  one : 1 ≤ size x
  upper : size x * c ≤ bound

/-- A product uses up the factor `slack` that the bound of its second factor has left. -/
theorem Within.mul [IsStrictOrderedRing β] (hsize : GrowthMeasure size slack) {x y : α}
    {c a b : β} (hc : 1 ≤ c) (hx : Within size c a x) (hy : Within size slack b y) :
    Within size c (a * b) (x * y) := by
  have hbounds := hsize.mul x y hx.one hy.one
  have hpos : 0 ≤ size x * c := zero_le_one.trans (one_le_mul_of_one_le_of_one_le hx.one hc)
  have hpos' : 0 ≤ size y * slack :=
    zero_le_one.trans (one_le_mul_of_one_le_of_one_le hy.one hsize.one_le_slack)
  refine ⟨hx.one.trans hbounds.left, ?_⟩
  calc size (x * y) * c ≤ size x * size y * slack * c :=
        mul_le_mul_of_nonneg_right hbounds.upper (zero_le_one.trans hc)
    _ = size x * c * (size y * slack) := by ring
    _ ≤ a * b := mul_le_mul hx.upper hy.upper hpos' (hpos.trans hx.upper)

/-- No variable is above the exact power, but for one factor `slack` for each product. -/
theorem Reaches.le_exact [IsStrictOrderedRing β] (hsize : GrowthMeasure size slack) {x : α}
    (hx : 1 ≤ size x) {n : Nat} (hn : 1 ≤ n) {s : PowState α} (h : (start x n).Reaches s) :
    size s.result ≤ size x ^ n * slack ^ n ∧ size s.base ≤ size x ^ n * slack ^ n := by
  have hslack := hsize.one_le_slack
  have hgrowth : 1 ≤ size x * slack := one_le_mul_of_one_le_of_one_le hx hslack
  have hone : Within size 1 ((size x * slack) ^ 0) (Arith.one : α) :=
    ⟨hsize.one.ge, by rw [hsize.one, mul_one, pow_zero]⟩
  have hbase : Within size slack ((size x * slack) ^ 1) x := ⟨hx, (pow_one _).ge⟩
  have hmul : ∀ y z i j, Within size 1 ((size x * slack) ^ i) y →
      Within size slack ((size x * slack) ^ j) z →
        Within size 1 ((size x * slack) ^ (i + j)) (y * z) := by
    intro y z i j hy hz
    rw [pow_add]
    exact hy.mul hsize le_rfl hz
  have hsquare : ∀ y i, Within size slack ((size x * slack) ^ i) y →
      Within size slack ((size x * slack) ^ (2 * i)) (y * y) := by
    intro y i hy
    rw [two_mul, pow_add]
    exact hy.mul hsize hslack hy
  -- For the same exponent the base has one factor `slack` less than the result.
  obtain ⟨r, b, hexponents⟩ := h.exponents
    (R := fun y k => Within size 1 ((size x * slack) ^ k) y)
    (B := fun y k => Within size slack ((size x * slack) ^ k) y) hn hone hbase hmul hsquare
  have hlast := hexponents.base
  rw [← mul_pow]
  constructor
  · calc size s.result = size s.result * 1 := (mul_one _).symm
      _ ≤ (size x * slack) ^ r := hexponents.result.upper
      _ ≤ (size x * slack) ^ n := pow_le_pow_right₀ hgrowth hexponents.result_le
  · calc size s.base ≤ size s.base * slack :=
          le_mul_of_one_le_right (zero_le_one.trans hlast.one) hslack
      _ ≤ (size x * slack) ^ b := hlast.upper
      _ ≤ (size x * slack) ^ n := pow_le_pow_right₀ hgrowth hexponents.le

end PowState

end Measure

/-! ## Both kinds of arithmetic -/

/-- What is said of powers where products can be regrouped. -/
structure ExactPowers (α : Type) [Arith α] : Prop where
  /-- The loop ends, and then the result is the product of `n` factors. -/
  ends : ∀ (x : α) (n : Nat), ∃ last, (PowState.start x n).Reaches last ∧ last.next? = none ∧
    last.result = natPow x n ∧ natPow x n = product x n
  /-- On the way both variables hold powers that are not beyond the result. -/
  powers : ∀ (x : α) (n : Nat) (s : PowState α), 1 ≤ n → (PowState.start x n).Reaches s →
    (∃ k ≤ n, s.result = product x k) ∧ ∃ k ≤ n, s.base = product x k
  /-- If `x` is not below one, no variable is larger than the result is. -/
  sizes : ∀ (β : Type) [CommSemiring β] [LinearOrder β] [IsStrictOrderedRing β] (size : α → β),
    size Arith.one = 1 → (∀ x y, size (x * y) = size x * size y) →
      ∀ (x : α) (n : Nat) (s : PowState α), 1 ≤ n → 1 ≤ size x → (PowState.start x n).Reaches s →
        size s.result ≤ size (product x n) ∧ size s.base ≤ size (product x n)
  /-- So what is too large for a variable leaves the result too large. -/
  overflow : ∀ (β : Type) [CommSemiring β] [LinearOrder β] [IsStrictOrderedRing β] (size : α → β),
    size Arith.one = 1 → (∀ x y, size (x * y) = size x * size y) →
      ∀ (x : α) (n : Nat) (s : PowState α) (bound : β), 1 ≤ n → 1 ≤ size x →
        (PowState.start x n).Reaches s → bound < size s.result ∨ bound < size s.base →
          bound < size (product x n)

/-- What is said of powers of floating-point numbers, where `limit` is the power of two next to the
largest number. -/
structure RoundedPowers (α : Type) [FloatArith α] (limit slack : ℚ) : Prop where
  ends : ∀ (x : α) (n : Nat), ∃ last, (PowState.start x n).Reaches last ∧ last.next? = none ∧
    last.result = natPow x n
  sizes : ∀ (x : α) (n : Nat) (s : PowState α), 1 ≤ n →
    1 ≤ (FloatArith.exactValue x).magnitude limit → (PowState.start x n).Reaches s →
      (FloatArith.exactValue s.result).magnitude limit ≤
          (FloatArith.exactValue (natPow x n)).magnitude limit ∧
        (FloatArith.exactValue s.base).magnitude limit ≤
          (FloatArith.exactValue (natPow x n)).magnitude limit
  /-- A variable overflows only if the result does, and only if the exact power is beyond the limit,
  but for the rounding of `n` products. -/
  overflow : ∀ (x : α) (n : Nat) (s : PowState α), 1 ≤ n →
    1 ≤ (FloatArith.exactValue x).magnitude limit → (PowState.start x n).Reaches s →
      (∃ negative, FloatArith.exactValue s.result = .infinite negative ∨
        FloatArith.exactValue s.base = .infinite negative) →
      (∃ negative, FloatArith.exactValue (natPow x n) = .infinite negative) ∧
        limit ≤ (FloatArith.exactValue x).magnitude limit ^ n * slack ^ n

theorem exactPowers {α : Type} [Arith α] [LawfulMul α] : ExactPowers α where
  ends := by
    intro x n
    obtain ⟨last, hreaches, hlast, hresult⟩ := (PowState.start x n).exists_last
    exact ⟨last, hreaches, hlast, hresult, natPow_eq_product x n⟩
  powers _ _ _ hn h := h.powers hn
  sizes := by
    intro β _ _ _ size hone hmul x n s hn hx h
    rw [← natPow_eq_product]
    exact h.le_natPow (growthMeasure_of_mul hone hmul) hx hn
  overflow := by
    intro β _ _ _ size hone hmul x n s bound hn hx h hlarge
    obtain ⟨hresult, hbase⟩ := h.le_natPow (growthMeasure_of_mul hone hmul) hx hn
    rw [natPow_eq_product] at hresult hbase
    exact hlarge.elim (·.trans_le hresult) (·.trans_le hbase)

section Packed

variable {α : Type} [FloatArith α] [PackedArith α]

open PackedArith

theorem growthMeasure_magnitude :
    GrowthMeasure (magnitude : α → ℚ) (1 + 1 / 2 ^ (spec α).mantissaBitsWithoutImplicit) where
  one := magnitude_one
  one_le_slack := le_add_of_nonneg_right (by positivity)
  mul _ _ := productBounds_mul

theorem roundedPowers :
    RoundedPowers α (Packed.limit (spec α)) (1 + 1 / 2 ^ (spec α).mantissaBitsWithoutImplicit) where
  ends x n := (PowState.start x n).exists_last
  sizes _ _ _ hn hx h := h.le_natPow growthMeasure_magnitude hx hn
  overflow := by
    intro x n s hn hx h hinfinite
    have hpower := h.le_natPow growthMeasure_magnitude hx hn
    have hexact := h.le_exact growthMeasure_magnitude hx hn
    obtain ⟨negative, hresult | hbase⟩ := hinfinite
    · rw [magnitude_of_infinite hresult] at hpower hexact
      exact ⟨infinite_of_limit_le hpower.1, hexact.1⟩
    · rw [magnitude_of_infinite hbase] at hpower hexact
      exact ⟨infinite_of_limit_le hpower.2, hexact.2⟩

end Packed

/-- **Powers do not overshoot.**  Where products can be regrouped, repeated squaring ends with the
product of `n` factors and holds no power beyond it on the way, so nothing gets larger than the
result and nothing overflows before it does.  In floating-point numbers no variable gets larger than
the result either, and an overflow takes an exact power that is as large, but for the rounding of
`n` products. -/
theorem powers_do_not_overshoot :
    (∀ (α : Type) [Arith α] [LawfulMul α], ExactPowers α) ∧
      RoundedPowers Float (2 ^ 1024) (1 + 1 / 2 ^ 52) ∧
      RoundedPowers Float32 (2 ^ 128) (1 + 1 / 2 ^ 23) := by
  refine ⟨fun α _ _ => exactPowers, ?_, ?_⟩
  · exact @roundedPowers Float (.withPow Arith.pow) (packedDouble Arith.pow)
  · exact @roundedPowers Float32 (.withPow Arith.pow) (packedSingle Arith.pow)

section Real

attribute [local instance] Norm.realArith

/-- In real numbers the fifth power of two, where the base is `2 ^ 4` before the last round; and in
doubles the third power of `1e200`, where the base overflows in the first round. -/
theorem powers_of_large_numbers :
    let s : PowState ℝ := ⟨2, 16, 1⟩
    let t : PowState Float := ⟨1e200, 1.0 / 0.0, 1⟩
    LawfulMul ℝ ∧ (PowState.start (2 : ℝ) 5).Reaches s ∧ (∃ k ≤ 5, s.base = product 2 k) ∧
      |s.base| ≤ |product (2 : ℝ) 5| ∧
      (PowState.start (1e200 : Float) 3).Reaches t ∧
      1 ≤ (FloatArith.exactValue (1e200 : Float)).magnitude (2 ^ 1024) ∧
      FloatArith.exactValue t.base = .infinite false ∧
      ∃ negative, FloatArith.exactValue (natPow (1e200 : Float) 3) = .infinite negative := by
  intro s t
  have hlawful : LawfulMul ℝ := Norm.exactArith_real.toLawfulMul
  obtain ⟨hexact, hdouble, -⟩ := powers_do_not_overshoot
  have hreaches : (PowState.start (2 : ℝ) 5).Reaches s := by
    have hfirst : (PowState.start (2 : ℝ) 5).next? = some ⟨1 * 2, 2 * 2, 2⟩ := rfl
    have hsecond : (⟨1 * 2, 2 * 2, 2⟩ : PowState ℝ).next? = some ⟨1 * 2, 2 * 2 * (2 * 2), 1⟩ := rfl
    have hs : s = ⟨1 * 2, 2 * 2 * (2 * 2), 1⟩ := by norm_num [s]
    have hround : (PowState.start (2 : ℝ) 5).Reaches ⟨1 * 2, 2 * 2, 2⟩ := .single hfirst
    rw [hs]
    exact hround.tail hsecond
  have hreaches' : (PowState.start (1e200 : Float) 3).Reaches t := by
    refine .single ?_
    decide +kernel
  have hlarge : 1 ≤ (FloatArith.exactValue (1e200 : Float)).magnitude (2 ^ 1024) :=
    ExactValue.one_le_magnitude _ (by decide +kernel)
  have hinfinite : FloatArith.exactValue t.base = .infinite false := by decide +kernel
  refine ⟨hlawful, hreaches, ((hexact ℝ).powers 2 5 s (by decide) hreaches).2, ?_, hreaches',
    hlarge, hinfinite,
    (hdouble.overflow _ 3 t (by decide) hlarge hreaches' ⟨false, .inr hinfinite⟩).1⟩
  exact ((hexact ℝ).sizes ℝ (fun x => |x|) abs_one abs_mul 2 5 s (by decide) (by norm_num)
    hreaches).2

end Real

end PNorm
