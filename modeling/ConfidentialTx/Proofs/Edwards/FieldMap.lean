import ConfidentialTx.Proofs.Edwards.Coding
import Mathlib.Tactic.FieldSimp

/-! The field map lands on the curve. Its candidate fulfils the Montgomery equation whichever of the
four square roots it takes, and the denominators do not vanish because neither `2` nor `2 * (A - 1)`
is a square. -/
namespace ConfidentialTx.Edwards

open Coordinate

namespace FieldMap

theorem cast_montgomeryA : (montgomeryA : ZMod p) = 486662 := rfl

theorem cast_scale : (scale : ZMod p) = montgomeryA * (montgomeryA + 2) := by
  rw [scale, cast_mul, Nat.cast_add, Nat.cast_ofNat]

theorem not_isSquare_two_mul_pred : ¬ IsSquare (2 * (montgomeryA - 1) : ZMod p) := by
  have h : ¬ IsSquare ((973322 : ℕ) : ZMod p) := not_isSquare_of_pow_half (by decide +kernel)
  have hcast : (2 * (montgomeryA - 1) : ZMod p) = (973322 : ℕ) := by
    rw [cast_montgomeryA]
    norm_num
  rw [hcast]
  exact h

/-- The Montgomery coordinate `x / w` with the ratio `r` up to scale: the equation in which `r` is the
Edwards coordinate, and a denominator that is not zero. -/
structure Lands (r x w : ZMod p) : Prop where
  equation : r * r * (x * x + montgomeryA * x * w + w * w) = -((montgomeryA + 2) * x * w)
  ne_zero : x + w ≠ 0

theorem Lands.curve {r x w y : ZMod p} (h : Lands r x w) (hy : y * (x + w) = x - w) :
    -(r * r) + y * y = 1 + d * (r * r * (y * y)) := by
  have hscale : (121666 : ZMod p) * ((x + w) * (x + w)) ≠ 0 :=
    mul_ne_zero (by decide) (mul_ne_zero h.ne_zero h.ne_zero)
  apply mul_left_cancel₀ hscale
  have hequation := h.equation
  rw [cast_montgomeryA] at hequation
  linear_combination
    (121666 - 121666 * d * (r * r)) * (y * (x + w) + (x - w)) * hy -
      r * r * (x - w) * (x - w) * cast_d - hequation

/-- A candidate for a square `w / x`: the other one is left out by the factor `2 * u * u`. -/
theorem lands_of_square {r s u w : ZMod p} (hw : w = 2 * (u * u) + 1)
    (h : s * s * (r * r * (w * w - montgomeryA * montgomeryA * (2 * (u * u)))) =
      2 * (montgomeryA * (montgomeryA + 2)) * w) :
    Lands (r * s * u) (-montgomeryA * (2 * (u * u))) w := by
  refine ⟨?_, ?_⟩
  · subst hw
    linear_combination u * u * h
  · intro hzero
    have hu : u = 0 := by
      apply eq_zero_of_mul_self_eq (a := 1) not_isSquare_two_mul_pred
      linear_combination hzero - hw
    rw [hw, hu] at hzero
    simp at hzero

theorem lands_of_twist {r s u w : ZMod p} (hw : w = 2 * (u * u) + 1)
    (h : s * s * (r * r * (w * w - montgomeryA * montgomeryA * (2 * (u * u)))) =
      montgomeryA * (montgomeryA + 2) * w) : Lands (r * s) (-montgomeryA) w := by
  refine ⟨?_, ?_⟩
  · subst hw
    linear_combination h
  · intro hzero
    apply not_isSquare_two_mul_pred
    refine ⟨2 * u, ?_⟩
    linear_combination 2 * (hw - hzero)

/-- The denominator of the square is not zero, as it is a difference of a square and twice another. -/
theorem denominator_ne_zero {u w : ZMod p} (hw : w = 2 * (u * u) + 1) :
    w * w - montgomeryA * montgomeryA * (2 * (u * u)) ≠ 0 := by
  intro hzero
  have hu : montgomeryA * u = 0 := by
    apply eq_zero_of_mul_self_eq (a := w) not_isSquare_two
    linear_combination hzero
  have hA : (montgomeryA : ZMod p) ≠ 0 := by decide
  have hw' : w * w = 0 := by
    linear_combination hzero + 2 * (montgomeryA * u) * hu
  rw [hw, (mul_eq_zero.mp hu).resolve_left hA] at hw'
  simp at hw'

theorem cast_rootPos : (rootPos * rootPos : ZMod p) = 2 * (montgomeryA * (montgomeryA + 2)) := by
  rw [← cast_square, square_rootPos, cast_mul, cast_scale, Nat.cast_ofNat]

theorem cast_rootNeg :
    (rootNeg * rootNeg : ZMod p) = -(2 * (montgomeryA * (montgomeryA + 2))) := by
  rw [← cast_square, square_rootNeg, cast_neg (mul_lt _ _), cast_mul, cast_scale, Nat.cast_ofNat]

theorem cast_rootPosTwist : (rootPosTwist * rootPosTwist : ZMod p) =
    sqrtMinusOne * (montgomeryA * (montgomeryA + 2)) := by
  rw [← cast_square, square_rootPosTwist, cast_mul, cast_scale]

theorem cast_rootNegTwist : (rootNegTwist * rootNegTwist : ZMod p) =
    -(sqrtMinusOne * (montgomeryA * (montgomeryA + 2))) := by
  rw [← cast_square, square_rootNegTwist, cast_neg (mul_lt _ _), cast_mul, cast_scale]

-- The roots are those that are found, and the one of minus one is a power of two.
example : pow 2 ((p - 1) / 4) 255 = sqrtMinusOne ∧
    [neg (mul 2 scale), mul 2 scale, neg (mul sqrtMinusOne scale), mul sqrtMinusOne scale].map sqrt? =
      [rootNeg, rootPos, rootNegTwist, rootPosTwist].map some := by
  decide +kernel

section

variable {u v w : ℕ} (hv : v = mul 2 (square u)) (hw : w = add v 1)

include hv in
theorem cast_double_square : (v : ZMod p) = 2 * (u * u) := by
  rw [hv, cast_mul, cast_square, Nat.cast_ofNat]

include hv hw in
theorem cast_double_square_succ : (w : ZMod p) = 2 * (u * u) + 1 := by
  rw [hw, cast_add, cast_double_square hv, Nat.cast_one]

include hv in
theorem cast_denominator :
    ((add (square w) (mul (neg (square montgomeryA)) v) : ℕ) : ZMod p) =
      w * w - montgomeryA * montgomeryA * (2 * (u * u)) := by
  rw [cast_add, cast_mul, cast_square, cast_neg (square_lt _), cast_square, cast_double_square hv]
  ring

/-- Half a root of `w / x` gives back `w` up to a fourth root of unity. -/
theorem exists_fourthRoot_check (w : ℕ) {x : ℕ} (hx : (x : ZMod p) ≠ 0) :
    ∃ z : ZMod p, IsFourthRoot z ∧
      ((mul (square (halfRoot (mul w (inv x)))) x : ℕ) : ZMod p) = w * z := by
  obtain ⟨z, hz, hroot⟩ := exists_fourthRoot (mul w (inv x))
  refine ⟨z, hz, ?_⟩
  rw [cast_mul, cast_square, hroot, cast_mul, cast_inv]
  field_simp

include hv hw in
/-- The four candidates, with what the half root `r` does to `w` in each of them. -/
theorem candidate_cases : ∃ (r : ℕ) (k : ZMod p),
    k = r * r * (w * w - montgomeryA * montgomeryA * (2 * (u * u))) ∧
      (k = w ∧
          candidate u v w = ⟨mul (mul r rootPos) u, mul (neg montgomeryA) v, false⟩ ∨
        k = -w ∧
          candidate u v w = ⟨mul (mul r rootNeg) u, mul (neg montgomeryA) v, false⟩ ∨
        k * sqrtMinusOne = w ∧
          candidate u v w = ⟨mul r rootPosTwist, neg montgomeryA, true⟩ ∨
        k = w * sqrtMinusOne ∧
          candidate u v w = ⟨mul r rootNegTwist, neg montgomeryA, true⟩) := by
  have hwp : w < p := by
    rw [hw]
    exact add_lt _ _
  have hx := cast_denominator hv (w := w)
  have hne := denominator_ne_zero (cast_double_square_succ hv hw)
  rw [← hx] at hne
  obtain ⟨z, hz, hk⟩ := exists_fourthRoot_check w hne
  rw [candidate]
  generalize add (square w) (mul (neg (square montgomeryA)) v) = x at hx hk ⊢
  generalize halfRoot (mul w (inv x)) = r at hk ⊢
  have hkp := mul_lt (square r) x
  have hcheck : ((mul (square r) x : ℕ) : ZMod p) =
      r * r * (w * w - montgomeryA * montgomeryA * (2 * (u * u))) := by
    rw [cast_mul, cast_square, hx]
  generalize mul (square r) x = k at hk hkp hcheck ⊢
  refine ⟨r, k, hcheck, ?_⟩
  by_cases h₁ : w = k
  · exact .inl ⟨by rw [h₁], if_pos h₁⟩
  by_cases h₂ : add w k = 0
  · refine .inr (.inl ⟨?_, by simp only [if_neg h₁, if_pos h₂]⟩)
    have hsum : (w + k : ZMod p) = 0 := by rw [← cast_add, h₂, Nat.cast_zero]
    exact eq_neg_of_add_eq_zero_right hsum
  by_cases h₃ : w = mul k sqrtMinusOne
  · refine .inr (.inr (.inl ⟨?_, by simp only [if_neg h₁, if_neg h₂, if_pos h₃]⟩))
    rw [← cast_mul, ← h₃]
  · refine .inr (.inr (.inr ⟨?_, by simp only [if_neg h₁, if_neg h₂, if_neg h₃]⟩))
    rcases hz with (rfl | rfl) | rfl | rfl
    · exact absurd (eq_of_cast hwp hkp (by rw [hk, mul_one])) h₁
    · refine absurd (eq_of_cast (add_lt _ _) p_pos ?_) h₂
      rw [cast_add, hk, Nat.cast_zero]
      ring
    · exact hk
    · refine absurd (eq_of_cast hwp (mul_lt _ _) ?_) h₃
      rw [cast_mul, hk]
      linear_combination (w : ZMod p) * cast_sqrtMinusOne

include hv hw in
theorem candidate_lands :
    Lands (candidate u v w).ratio (candidate u v w).x w ∧ (candidate u v w).ratio < p := by
  have hw' := cast_double_square_succ hv hw
  have hA : ((neg montgomeryA : ℕ) : ZMod p) = -montgomeryA := cast_neg (by decide)
  have hx : ((mul (neg montgomeryA) v : ℕ) : ZMod p) = -montgomeryA * (2 * (u * u)) := by
    rw [cast_mul, hA, cast_double_square hv]
  obtain ⟨r, k, hk, ⟨h, hc⟩ | ⟨h, hc⟩ | ⟨h, hc⟩ | ⟨h, hc⟩⟩ := candidate_cases hv hw
  all_goals
    rw [hc]
    refine ⟨?_, mul_lt _ _⟩
  · rw [cast_mul, cast_mul, hx]
    apply lands_of_square hw'
    rw [← hk, h, cast_rootPos]
  · rw [cast_mul, cast_mul, hx]
    apply lands_of_square hw'
    rw [← hk, h, cast_rootNeg, neg_mul_neg]
  · rw [cast_mul, hA]
    apply lands_of_twist hw'
    rw [← hk, cast_rootPosTwist]
    linear_combination (montgomeryA * (montgomeryA + 2) : ZMod p) * h
  · rw [cast_mul, hA]
    apply lands_of_twist hw'
    rw [← hk, h, cast_rootNegTwist]
    linear_combination -(montgomeryA * (montgomeryA + 2) * w : ZMod p) * cast_sqrtMinusOne

end

theorem Lands.neg {r x w : ZMod p} (h : Lands r x w) : Lands (-r) x w :=
  ⟨by rw [neg_mul_neg]; exact h.equation, h.ne_zero⟩

end FieldMap

namespace Point

open FieldMap

theorem reduced_ofElement (u : ℕ) : (ofElement u).Reduced := ⟨mul_lt _ _, mul_lt _ _⟩

theorem onCurve_ofElement (u : ℕ) : (ofElement u).OnCurve := by
  obtain ⟨hlands, hlt⟩ := candidate_lands (u := u) rfl rfl
  have hwp := add_lt (mul 2 (square u)) 1
  rw [onCurve_iff, ofElement]
  generalize Coordinate.add (mul 2 (square u)) 1 = w at hlands hlt hwp ⊢
  generalize candidate u (mul 2 (square u)) w = c at hlands hlt ⊢
  have hsigned : Lands (if isOdd c.ratio = c.odd then c.ratio else Coordinate.neg c.ratio : ℕ)
      c.x w := by
    by_cases hodd : isOdd c.ratio = c.odd
    · rw [if_pos hodd]
      exact hlands
    · rw [if_neg hodd, cast_neg hlt]
      exact hlands.neg
  generalize (if isOdd c.ratio = c.odd then c.ratio else Coordinate.neg c.ratio) = r at hsigned ⊢
  have hz := hsigned.ne_zero
  simp only [cast_mul, cast_inv, cast_add, cast_sub hwp, mul_inv_cancel_right₀ hz]
  apply hsigned.curve
  rw [mul_assoc, inv_mul_cancel₀ hz, mul_one]

/-- The key of the point of a digest, whatever its bytes, stands for a point on the curve, and that is
the point of the digest. -/
theorem decodes_ofDigest (h : Digest) : ∃ P : Point, ofKey? (ofDigest h).toKey = some P ∧
    P.Reduced ∧ P.OnCurve ∧ P.toKey = (ofDigest h).toKey ∧ P.x = (ofDigest h).x ∧
      group.pointOfDigest h = P := by
  have hreduced := reduced_ofElement (Bytes.toNatLE h.toList % p)
  have hcurve := onCurve_ofElement (Bytes.toNatLE h.toList % p)
  have hdecodes := (coded_of_onCurve hreduced hcurve).ofKey?_toKey
  exact ⟨ofDigest h, hdecodes, hreduced, hcurve, rfl, rfl, rfl⟩

end Point
end ConfidentialTx.Edwards
