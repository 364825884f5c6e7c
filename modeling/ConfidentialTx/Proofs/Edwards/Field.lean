import ConfidentialTx.Edwards.Coordinate
import ConfidentialTx.Proofs.Primality
import Mathlib.NumberTheory.LegendreSymbol.Basic
import Mathlib.Tactic.LinearCombination

/-! Coordinates as elements of the field of `p` elements. Reduced numbers are equal if they are equal
in the field, every operation is the one of the field, and a square root is found of every square. -/
namespace ConfidentialTx.Edwards.Coordinate

theorem neg_lt_p (a : ℕ) : neg a < p := sub_lt 0 a

theorem cast_add (a b : ℕ) : ((add a b : ℕ) : ZMod p) = a + b := by
  rw [add, ZMod.natCast_mod, Nat.cast_add]

theorem cast_mul (a b : ℕ) : ((mul a b : ℕ) : ZMod p) = a * b := by
  rw [mul, ZMod.natCast_mod, Nat.cast_mul]

theorem cast_square (a : ℕ) : ((square a : ℕ) : ZMod p) = a * a := by
  rw [square, ZMod.natCast_mod, Nat.cast_mul]

theorem cast_add_sub {a b : ℕ} (h : b < p) : ((a + p - b : ℕ) : ZMod p) = a - b := by
  rw [Nat.cast_sub (by omega), Nat.cast_add, ZMod.natCast_self, add_zero]

theorem cast_sub {a b : ℕ} (h : b < p) : ((sub a b : ℕ) : ZMod p) = a - b := by
  rw [sub, ZMod.natCast_mod, cast_add_sub h]

theorem cast_neg {a : ℕ} (h : a < p) : ((neg a : ℕ) : ZMod p) = -a := by
  rw [neg, cast_sub h, Nat.cast_zero, zero_sub]

theorem eq_of_cast {a b : ℕ} (ha : a < p) (hb : b < p) (h : (a : ZMod p) = b) : a = b := by
  rw [ZMod.natCast_eq_natCast_iff', Nat.mod_eq_of_lt ha, Nat.mod_eq_of_lt hb] at h
  exact h

theorem neg_neg_of_lt {a : ℕ} (h : a < p) : neg (neg a) = a := by
  apply eq_of_cast (neg_lt_p _) h
  rw [cast_neg (neg_lt_p a), cast_neg h]
  ring

theorem neg_mul_of_lt {a : ℕ} (h : a < p) (b : ℕ) : mul (neg a) b = neg (mul a b) := by
  apply eq_of_cast (mul_lt _ _) (neg_lt_p _)
  rw [cast_mul, cast_neg h, cast_neg (mul_lt _ _), cast_mul]
  ring

theorem pow_lt (a e w : ℕ) : pow a e (w + 1) < p := by
  rw [pow]
  split
  · exact mul_lt _ _
  · exact square_lt _

theorem lt_of_sqrt? {a r : ℕ} (h : sqrt? a = some r) : r < p := by
  simp only [sqrt?] at h
  split at h
  · cases h
    exact pow_lt _ _ _
  · split at h
    · cases h
      exact mul_lt _ _
    · cases h

theorem neg_zero : neg 0 = 0 := by decide

theorem isOdd_neg {a : ℕ} (h : a < p) (hpos : 0 < a) : isOdd (neg a) = !isOdd a := by
  have hp : p % 2 = 1 := by decide
  have hneg : neg a = p - a := by
    rw [neg, sub, Nat.zero_add, Nat.mod_eq_of_lt (by omega)]
  rw [Bool.eq_iff_iff, hneg]
  simp only [isOdd, beq_iff_eq, Bool.not_eq_true', beq_eq_false_iff_ne]
  omega

theorem eq_zero_of_neg_eq {a : ℕ} (h : a < p) (hneg : neg a = a) : a = 0 := by
  rcases Nat.eq_zero_or_pos a with hzero | hpos
  · exact hzero
  · have hodd := isOdd_neg h hpos
    rw [hneg] at hodd
    exact absurd hodd.symm (Bool.not_ne_self _)

theorem square_neg {a : ℕ} (h : a < p) : square (neg a) = square a := by
  apply eq_of_cast (square_lt _) (square_lt _)
  rw [cast_square, cast_square, cast_neg h]
  ring

/-! ## Powers -/

theorem pow_eq_powMod (a e w : ℕ) : pow a e w = Primality.powMod p a e w := by
  induction w generalizing e with
  | zero => rfl
  | succ w ih => simp only [pow, Primality.powMod, square, mul, ih]

theorem cast_pow (a e w : ℕ) : ((pow a e w : ℕ) : ZMod p) = (a : ZMod p) ^ (e % 2 ^ w) := by
  rw [pow_eq_powMod, Primality.cast_powMod]

/-- The modulus is prime; every larger factor of a predecessor is shown to be prime before. -/
theorem p_prime : p.Prime := by
  have h₁ : Nat.Prime 2773320623 :=
    Primality.prime_of_generates 5 [2, 2437, 569003] (by norm_num) (by decide +kernel)
  have h₂ : Nat.Prime 72106336199 :=
    Primality.prime_of_generates 7 [2, 13, 2773320623]
      (by simp only [List.forall_mem_cons, h₁]; norm_num) (by decide +kernel)
  have h₃ : Nat.Prime 1919519569386763 :=
    Primality.prime_of_generates 2 [2, 3, 7, 19, 47, 47, 127, 8574133]
      (by norm_num) (by decide +kernel)
  have h₄ : Nat.Prime 31757755568855353 :=
    Primality.prime_of_generates 10 [2, 2, 2, 3, 31, 107, 223, 4153, 430751]
      (by norm_num) (by decide +kernel)
  have h₅ : Nat.Prime 75445702479781427272750846543864801 :=
    Primality.prime_of_generates 7
      [2, 2, 2, 2, 2, 3, 3, 5, 5, 75707, 72106336199, 1919519569386763]
      (by simp only [List.forall_mem_cons, h₂, h₃]; norm_num) (by decide +kernel)
  have h₆ : Nat.Prime 74058212732561358302231226437062788676166966415465897661863160754340907 :=
    Primality.prime_of_generates 2 [2, 3, 353, 57467, 132049, 1923133, 31757755568855353,
      75445702479781427272750846543864801]
      (by simp only [List.forall_mem_cons, h₄, h₅]; norm_num) (by decide +kernel)
  exact Primality.prime_of_generates 2 [2, 2, 3, 65147,
    74058212732561358302231226437062788676166966415465897661863160754340907]
    (by simp only [List.forall_mem_cons, h₆]; norm_num) (by decide +kernel)

instance : Fact p.Prime := ⟨p_prime⟩

theorem cast_inv (a : ℕ) : ((inv a : ℕ) : ZMod p) = (a : ZMod p)⁻¹ := by
  have hexp : (p - 2) % 2 ^ 255 = p - 2 := by decide
  rw [inv, cast_pow, hexp]
  by_cases ha : (a : ZMod p) = 0
  · rw [ha, inv_zero]
    exact zero_pow (by decide)
  · apply eq_inv_of_mul_eq_one_left
    have hlast : p - 2 + 1 = p - 1 := by decide
    rw [← pow_succ, hlast]
    exact ZMod.pow_card_sub_one_eq_one ha

/-! ## Square roots -/

theorem cast_sqrtMinusOne : (sqrtMinusOne : ZMod p) * sqrtMinusOne = -1 := by
  have h : ((square sqrtMinusOne : ℕ) : ZMod p) = (neg 1 : ℕ) := by rw [square_sqrtMinusOne]
  rw [cast_square, cast_neg (by decide), Nat.cast_one] at h
  exact h

/-- The square of half a root is off by a power that no longer depends on the root. -/
theorem cast_halfRoot (a : ℕ) : (halfRoot a : ZMod p) * halfRoot a =
    a * (a : ZMod p) ^ ((p - 1) / 4) := by
  have hexp : (p + 3) / 8 % 2 ^ 255 = (p + 3) / 8 := by decide
  have hdouble : (p + 3) / 8 + (p + 3) / 8 = (p - 1) / 4 + 1 := by decide
  rw [halfRoot, cast_pow, hexp, ← pow_add, hdouble, pow_succ']

def IsFourthRoot (z : ZMod p) : Prop :=
  (z = 1 ∨ z = -1) ∨ z = sqrtMinusOne ∨ z = -sqrtMinusOne

theorem isFourthRoot_of_pow {z : ZMod p} (h : z ^ 4 = 1) : IsFourthRoot z := by
  have hi := cast_sqrtMinusOne
  have hfactors : (z * z - 1) * (z * z - sqrtMinusOne * sqrtMinusOne) = 0 := by
    rw [hi]
    linear_combination h
  rcases mul_eq_zero.mp hfactors with hz | hz
  · exact .inl (mul_self_eq_one_iff.mp (sub_eq_zero.mp hz))
  · exact .inr (mul_self_eq_mul_self_iff.mp (sub_eq_zero.mp hz))

theorem exists_fourthRoot (a : ℕ) :
    ∃ z : ZMod p, IsFourthRoot z ∧ (halfRoot a : ZMod p) * halfRoot a = a * z := by
  by_cases ha : (a : ZMod p) = 0
  · refine ⟨1, .inl (.inl rfl), ?_⟩
    rw [cast_halfRoot, ha, zero_mul, zero_mul]
  · have hcard : (p - 1) / 4 * 4 = p - 1 := by decide
    refine ⟨_, isFourthRoot_of_pow ?_, cast_halfRoot a⟩
    rw [← pow_mul, hcard]
    exact ZMod.pow_card_sub_one_eq_one ha

/-- Half a root of a square is a root of it or of its negative. -/
theorem cast_halfRoot_of_square {a : ℕ} {b : ZMod p} (h : b * b = a) :
    (halfRoot a : ZMod p) * halfRoot a = a ∨ (halfRoot a : ZMod p) * halfRoot a = -a := by
  rw [cast_halfRoot]
  by_cases hb : b = 0
  · rw [← h, hb, mul_zero, zero_mul]
    exact .inl rfl
  · have hhalf : (p - 1) / 4 + (p - 1) / 4 = p / 2 := by decide
    have hpow : (a : ZMod p) ^ ((p - 1) / 4) = b ^ (p / 2) := by
      rw [← h, mul_pow, ← pow_add, hhalf]
    rw [hpow]
    rcases ZMod.pow_div_two_eq_neg_one_or_one p hb with hone | hone
    · exact .inl (by rw [hone, mul_one])
    · exact .inr (by rw [hone, mul_neg_one])

theorem exists_sqrt?_eq_some {a : ℕ} (ha : a < p) {b : ZMod p} (h : b * b = a) :
    ∃ r, sqrt? a = some r := by
  rw [sqrt?]
  by_cases hroot : square (halfRoot a) = a
  · exact ⟨_, if_pos hroot⟩
  · have hother : square (mul (halfRoot a) sqrtMinusOne) = a := by
      apply eq_of_cast (square_lt _) ha
      rcases cast_halfRoot_of_square h with hhalf | hhalf
      · rw [← cast_square] at hhalf
        exact absurd (eq_of_cast (square_lt _) ha hhalf) hroot
      · rw [cast_square, cast_mul]
        linear_combination (sqrtMinusOne * sqrtMinusOne : ZMod p) * hhalf - a * cast_sqrtMinusOne
    exact ⟨mul (halfRoot a) sqrtMinusOne, by simp only [if_neg hroot, if_pos hother]⟩

theorem not_isSquare_of_pow_half {a : ℕ} (h : pow a (p / 2) 255 = neg 1) :
    ¬ IsSquare (a : ZMod p) := by
  have hexp : p / 2 % 2 ^ 255 = p / 2 := by decide
  have hpow : (a : ZMod p) ^ (p / 2) = -1 := by
    rw [← hexp, ← cast_pow, h, cast_neg (by decide), Nat.cast_one]
  have hne : (-1 : ZMod p) ≠ 1 := by decide
  have ha : (a : ZMod p) ≠ 0 := by
    intro ha
    rw [ha, zero_pow (by decide)] at hpow
    exact zero_ne_one (neg_eq_zero.mp hpow.symm).symm
  rw [ZMod.euler_criterion p ha, hpow]
  exact hne

theorem not_isSquare_two : ¬ IsSquare (2 : ZMod p) :=
  not_isSquare_of_pow_half (a := 2) (by decide +kernel)

theorem eq_zero_of_mul_self_eq {n a b : ZMod p} (hn : ¬ IsSquare n) (h : a * a = n * (b * b)) :
    b = 0 := by
  by_contra hb
  apply hn
  refine ⟨a / b, ?_⟩
  rw [div_mul_div_comm, h, mul_div_cancel_right₀ n (mul_ne_zero hb hb)]

end ConfidentialTx.Edwards.Coordinate
