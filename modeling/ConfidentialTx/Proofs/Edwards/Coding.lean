import ConfidentialTx.Proofs.Edwards.OrderTwo

/-! Keys and the points that they stand for. A point whose `y` belongs to some `x` is read back from
its own key, and so is the point with both signs changed. Every point on the curve is of this kind. -/
namespace ConfidentialTx.Edwards

open Coordinate

theorem cast_d : (d : ZMod p) * 121666 = -121665 := by
  have h : ((mul d 121666 : ℕ) : ZMod p) = (neg 121665 : ℕ) := by rw [mul_d]
  rw [cast_mul, cast_neg (by decide)] at h
  exact_mod_cast h

namespace Point

theorem of_evenX? {y x : ℕ} (h : evenX? y = some x) : x < p ∧ isOdd x = false := by
  obtain ⟨r, hr, rfl⟩ := Option.map_eq_some_iff.mp h
  have hlt := lt_of_sqrt? hr
  cases hodd : isOdd r with
  | false => simp [hlt, hodd]
  | true =>
    have hpos : 0 < r := by
      rcases Nat.eq_zero_or_pos r with rfl | hpos
      · cases hodd
      · exact hpos
    simp [neg_lt_p, isOdd_neg hlt hpos, hodd]

theorem evenX?_neg {y : ℕ} (h : y < p) : evenX? (Coordinate.neg y) = evenX? y := by
  rw [evenX?, evenX?, square_neg h]

/-- The point is one of the two that some key with its `y` may stand for. -/
structure Coded (P : Point) : Prop where
  reduced : P.Reduced
  x_eq : ∃ x, evenX? P.y = some x ∧ (P.x = x ∨ P.x = Coordinate.neg x)

theorem coded_of_ofKey? {k : Key} {P : Point} (h : ofKey? k = some P) : P.Coded := by
  obtain ⟨x, hx, rfl⟩ := Option.map_eq_some_iff.mp h
  have hlt := (of_evenX? hx).1
  refine ⟨⟨?_, Nat.mod_lt _ p_pos⟩, x, hx, ?_⟩
  · split
    · exact hlt
    · exact neg_lt_p x
  · split
    · exact .inl rfl
    · exact .inr rfl

theorem Coded.flip {P : Point} (h : P.Coded) : (P.flip true).Coded := by
  obtain ⟨hreduced, x, hx, hP⟩ := h
  refine ⟨hreduced.flip true, x, (evenX?_neg hreduced.y_lt).trans hx, ?_⟩
  rcases hP with hP | hP
  · exact .inr (congrArg Coordinate.neg hP)
  · refine .inl ((congrArg Coordinate.neg hP).trans ?_)
    exact neg_neg_of_lt (of_evenX? hx).1

/-- The origin is not coded, so a sign changes every coded point. -/
theorem Coded.flip_ne {P : Point} (h : P.Coded) : P.flip true ≠ P := by
  intro heq
  obtain ⟨⟨hxp, hyp⟩, x, hroot, hP⟩ := h
  have hx : P.x = 0 := eq_zero_of_neg_eq hxp (congrArg Point.x heq)
  have hy : P.y = 0 := eq_zero_of_neg_eq hyp (congrArg Point.y heq)
  have hzero : x = 0 := by
    rw [hx] at hP
    rcases hP with hP | hP
    · exact hP.symm
    · rw [← neg_neg_of_lt (of_evenX? hroot).1, ← hP, neg_zero]
  rw [hy, hzero] at hroot
  exact absurd hroot (by decide +kernel)

theorem Coded.sign {P : Point} {x : ℕ} (hx : evenX? P.y = some x)
    (hP : P.x = x ∨ P.x = Coordinate.neg x) :
    P.x = if isOdd P.x then Coordinate.neg x else x := by
  obtain ⟨hlt, heven⟩ := of_evenX? hx
  rcases hP with hP | hP
  · rw [hP, heven]
    rfl
  · rcases Nat.eq_zero_or_pos x with rfl | hpos
    · rw [hP, neg_zero]
      rfl
    · rw [hP, isOdd_neg hlt hpos, heven]
      rfl

theorem Coded.ofKey?_toKey {P : Point} (h : P.Coded) : ofKey? P.toKey = some P := by
  obtain ⟨hreduced, x, hx, hP⟩ := h
  have hy := hreduced.y_lt
  have hbound : Bytes.bound 32 = 2 * signBit := by decide
  have hsign : p < signBit := by decide
  have hlow : P.y % signBit = P.y := Nat.mod_eq_of_lt (hy.trans hsign)
  have hnumber : Bytes.toNatLE P.toKey.toList = P.y + if isOdd P.x then signBit else 0 := by
    rw [toKey, Bytes.toNatLE_ofNatLE, hbound, Nat.mod_eq_of_lt]
    split <;> omega
  have hvalue : Bytes.toNatLE P.toKey.toList % signBit % p = P.y := by
    rw [hnumber]
    split
    · rw [Nat.add_mod_right, hlow, Nat.mod_eq_of_lt hy]
    · rw [Nat.add_zero, hlow, Nat.mod_eq_of_lt hy]
  have hbelow : Bytes.toNatLE P.toKey.toList < signBit ↔ isOdd P.x = false := by
    rw [hnumber]
    cases isOdd P.x <;> simp; omega
  rw [ofKey?, Option.map_eq_some_iff]
  refine ⟨x, by rw [hvalue, hx], ?_⟩
  have hchoice : (if Bytes.toNatLE P.toKey.toList < signBit then x else Coordinate.neg x) = P.x := by
    rw [Coded.sign hx hP]
    cases hodd : isOdd P.x <;> simp [hbelow, hodd]
  rw [hvalue, hchoice]

/-! ## Points on the curve -/

theorem onCurve_iff (P : Point) : P.OnCurve ↔
    -(P.x * P.x) + P.y * P.y = (1 + d * (P.x * P.x * (P.y * P.y)) : ZMod p) := by
  have hleft : ((Coordinate.add (Coordinate.neg (square P.x)) (square P.y) : ℕ) : ZMod p) =
      -(P.x * P.x) + P.y * P.y := by
    rw [cast_add, cast_neg (square_lt _), cast_square, cast_square]
  have hright : ((Coordinate.add 1 (mul d (mul (square P.x) (square P.y))) : ℕ) : ZMod p) =
      1 + d * (P.x * P.x * (P.y * P.y)) := by
    rw [cast_add, cast_mul, cast_mul, cast_square, cast_square, Nat.cast_one]
  rw [← hleft, ← hright]
  exact ⟨fun h => congrArg _ h, Coordinate.eq_of_cast (add_lt _ _) (add_lt _ _)⟩

/-- The square of `x` that belongs to `y`; on the curve its denominator is not zero. -/
theorem OnCurve.square_x {P : Point} (h : P.OnCurve) : (P.x * P.x : ZMod p) =
    (mul (Coordinate.sub (square P.y) 1) (inv (Coordinate.add (mul d (square P.y)) 1)) : ℕ) := by
  have hcurve := (onCurve_iff P).mp h
  have hne : (d * (P.y * P.y) + 1 : ZMod p) ≠ 0 := by
    intro hzero
    have hy : (P.y * P.y : ZMod p) = 1 := by
      linear_combination hcurve + (P.x * P.x : ZMod p) * hzero
    rw [hy, mul_one] at hzero
    have hd := cast_d
    rw [eq_neg_of_add_eq_zero_left hzero] at hd
    exact absurd hd (by decide)
  rw [cast_mul, Coordinate.cast_sub (by decide), cast_inv, cast_add, cast_mul, cast_square,
    Nat.cast_one, eq_mul_inv_iff_mul_eq₀ hne]
  linear_combination -hcurve

theorem coded_of_onCurve {P : Point} (hreduced : P.Reduced) (h : P.OnCurve) : P.Coded := by
  have hsquare := h.square_x
  obtain ⟨r, hr⟩ := exists_sqrt?_eq_some (mul_lt _ _) hsquare
  have hlt := lt_of_sqrt? hr
  have hroot : P.x = r ∨ P.x = Coordinate.neg r := by
    have hcast : (P.x * P.x : ZMod p) = r * r := by
      rw [hsquare, ← square_of_sqrt? hr, cast_square]
    rcases mul_self_eq_mul_self_iff.mp hcast with hx | hx
    · exact .inl (Coordinate.eq_of_cast hreduced.x_lt hlt hx)
    · rw [← cast_neg hlt] at hx
      exact .inr (Coordinate.eq_of_cast hreduced.x_lt (neg_lt_p r) hx)
  refine ⟨hreduced, if isOdd r then Coordinate.neg r else r, ?_, ?_⟩
  · simp only [evenX?, hr, Option.map_some]
  · by_cases hodd : isOdd r
    · rw [if_pos hodd, neg_neg_of_lt hlt]
      exact hroot.symm
    · rw [if_neg hodd]
      exact hroot

end Point
end ConfidentialTx.Edwards
