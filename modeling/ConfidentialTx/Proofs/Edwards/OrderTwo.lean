import ConfidentialTx.Edwards.Group
import ConfidentialTx.Proofs.Edwards.Field

/-! The point of order two, `(0, -1)`. To add it is to change the sign of both coordinates, and sums
are built so that a sign passes through them: a multiple by an odd number keeps it, one by an even
number loses it. Nothing here asks whether a point is on the curve. -/
namespace ConfidentialTx.Edwards

open Coordinate

namespace Extended

structure Reduced (P : Extended) : Prop where
  x_lt : P.x < p
  y_lt : P.y < p
  z_lt : P.z < p
  t_lt : P.t < p

theorem eq_of_cast {P Q : Extended} (hP : P.Reduced) (hQ : Q.Reduced) (hx : (P.x : ZMod p) = Q.x)
    (hy : (P.y : ZMod p) = Q.y) (hz : (P.z : ZMod p) = Q.z) (ht : (P.t : ZMod p) = Q.t) : P = Q := by
  have hx := Coordinate.eq_of_cast hP.x_lt hQ.x_lt hx
  have hy := Coordinate.eq_of_cast hP.y_lt hQ.y_lt hy
  have hz := Coordinate.eq_of_cast hP.z_lt hQ.z_lt hz
  have ht := Coordinate.eq_of_cast hP.t_lt hQ.t_lt ht
  cases P
  cases Q
  simp_all

theorem reduced_add (P Q : Extended) : (P.add Q).Reduced :=
  ⟨mul_lt _ _, mul_lt _ _, mul_lt _ _, mul_lt _ _⟩

theorem reduced_double (P : Extended) : P.double.Reduced :=
  ⟨mul_lt _ _, mul_lt _ _, mul_lt _ _, mul_lt _ _⟩

theorem reduced_zero : zero.Reduced := ⟨by decide, by decide, by decide, by decide⟩

/-- The sum with the point of order two, if the argument is true. -/
def flip (b : Bool) (P : Extended) : Extended :=
  if b then ⟨neg P.x, neg P.y, P.z, P.t⟩ else P

@[simp] theorem flip_false (P : Extended) : P.flip false = P := rfl

variable {P Q : Extended}

theorem Reduced.flip (h : P.Reduced) (b : Bool) : (P.flip b).Reduced := by
  cases b with
  | false => exact h
  | true => exact ⟨neg_lt_p _, neg_lt_p _, h.z_lt, h.t_lt⟩

theorem flip_flip (h : P.Reduced) (b c : Bool) : (P.flip b).flip c = P.flip (b ^^ c) := by
  cases b with
  | false => cases c <;> rfl
  | true =>
    cases c with
    | false => rfl
    | true => simp [Extended.flip, neg_neg_of_lt h.x_lt, neg_neg_of_lt h.y_lt]

theorem add_flip_right (hP : P.Reduced) (hQ : Q.Reduced) (b : Bool) :
    P.add (Q.flip b) = (P.add Q).flip b := by
  cases b with
  | false => rfl
  | true =>
    apply eq_of_cast (reduced_add _ _) ((reduced_add _ _).flip true)
    all_goals simp only [add, Extended.flip, if_true, cast_mul, cast_add_sub, cast_neg,
      Nat.cast_add, hP.x_lt, hQ.x_lt, hQ.y_lt, neg_lt_p, mul_lt]
    all_goals ring

theorem add_flip_left (hP : P.Reduced) (hQ : Q.Reduced) (b : Bool) :
    (P.flip b).add Q = (P.add Q).flip b := by
  cases b with
  | false => rfl
  | true =>
    apply eq_of_cast (reduced_add _ _) ((reduced_add _ _).flip true)
    all_goals simp only [add, Extended.flip, if_true, cast_mul, cast_add_sub, cast_neg,
      Nat.cast_add, hP.x_lt, hP.y_lt, hQ.x_lt, neg_lt_p, mul_lt]
    all_goals ring

/-- Doubling loses the sign. -/
theorem double_flip (hP : P.Reduced) (b : Bool) : (P.flip b).double = P.double := by
  cases b with
  | false => rfl
  | true =>
    apply eq_of_cast (reduced_double _) (reduced_double _)
    all_goals simp only [double, Extended.flip, if_true, cast_mul, cast_square, cast_add_sub,
      cast_neg, Nat.cast_add, Nat.cast_mul, hP.x_lt, hP.y_lt, square_lt]
    all_goals ring

end Extended

/-! ## Multiples -/

theorem isOdd_of_dvd {n : ℕ} (h : 2 ∣ n) : isOdd n = false := by
  rw [isOdd, beq_eq_false_iff_ne]
  omega

theorem isOdd_succ (k : ℕ) : isOdd (k + 1) = !isOdd k := by
  rw [Bool.eq_iff_iff]
  simp only [isOdd, beq_iff_eq, Bool.not_eq_true', beq_eq_false_iff_ne]
  omega

theorem isOdd_mod_sixteen (k : ℕ) : isOdd (k % 16) = isOdd k := by
  simp only [isOdd]
  congr 1
  omega

namespace Point

structure Reduced (P : Point) : Prop where
  x_lt : P.x < p
  y_lt : P.y < p

def flip (b : Bool) (P : Point) : Point := if b then ⟨Coordinate.neg P.x, Coordinate.neg P.y⟩ else P

@[simp] theorem flip_false (P : Point) : P.flip false = P := rfl

variable {P : Point}

theorem Reduced.flip (h : P.Reduced) (b : Bool) : (P.flip b).Reduced := by
  cases b with
  | false => exact h
  | true => exact ⟨neg_lt_p _, neg_lt_p _⟩

theorem Reduced.toExtended (h : P.Reduced) : P.toExtended.Reduced :=
  ⟨h.x_lt, h.y_lt, (by decide : 1 < p), mul_lt _ _⟩

theorem toExtended_flip (h : P.Reduced) (b : Bool) :
    (P.flip b).toExtended = P.toExtended.flip b := by
  cases b with
  | false => rfl
  | true =>
    have ht : mul (Coordinate.neg P.x) (Coordinate.neg P.y) = mul P.x P.y := by
      apply Coordinate.eq_of_cast (mul_lt _ _) (mul_lt _ _)
      rw [cast_mul, cast_mul, cast_neg h.x_lt, cast_neg h.y_lt]
      ring
    simp [Point.flip, Extended.flip, toExtended, ht]

end Point

theorem Extended.toPoint_flip {P : Extended} (h : P.Reduced) (b : Bool) :
    (P.flip b).toPoint = P.toPoint.flip b := by
  cases b with
  | false => rfl
  | true => simp [Extended.flip, Point.flip, toPoint, neg_mul_of_lt h.x_lt, neg_mul_of_lt h.y_lt]

namespace Multiples

open Extended

/-- The multiples of a point with the sign changed have it changed at the odd places. -/
theorem getD_progression_flip {P acc : Extended} (hP : P.Reduced) (hacc : acc.Reduced) (b c : Bool)
    {n k : ℕ} (hk : k ≤ n) : (progression (P.flip b) n (acc.flip c)).getD k .zero =
      ((progression P n acc).getD k .zero).flip (c ^^ (b && isOdd k)) := by
  induction n generalizing acc c k with
  | zero =>
    rw [Nat.le_zero.mp hk]
    simp [progression, isOdd]
  | succ n ih =>
    cases k with
    | zero => simp [progression, isOdd]
    | succ k =>
      have hnext : (acc.flip c).add (P.flip b) = (acc.add P).flip (c ^^ b) := by
        rw [add_flip_right (hacc.flip c) hP, add_flip_left hacc hP, flip_flip (reduced_add _ _)]
      have hsign : ((c ^^ b) ^^ (b && isOdd k)) = (c ^^ (b && isOdd (k + 1))) := by
        rw [isOdd_succ]
        cases b <;> cases c <;> cases isOdd k <;> rfl
      rw [progression, progression, List.getD_cons_succ, List.getD_cons_succ, hnext,
        ih (reduced_add _ _) (c ^^ b) (Nat.le_of_succ_le_succ hk), hsign]

theorem reduced_getD_progression {P acc : Extended} (hacc : acc.Reduced) (n k : ℕ) :
    ((progression P n acc).getD k .zero).Reduced := by
  induction n generalizing acc k with
  | zero =>
    cases k with
    | zero => exact hacc
    | succ k => exact reduced_zero
  | succ n ih =>
    cases k with
    | zero => exact hacc
    | succ k => exact ih (reduced_add _ _) k

theorem get_ofPoint (P : Point) (k : ℕ) :
    (ofPoint P).get k = (progression P.toExtended 15 .zero).getD k .zero := by
  simp [ofPoint, get, List.getD_eq_getElem?_getD, Array.getD_eq_getD_getElem?]

theorem reduced_get (P : Point) (k : ℕ) : ((ofPoint P).get k).Reduced := by
  rw [get_ofPoint]
  exact reduced_getD_progression reduced_zero 15 k

theorem get_flip {P : Point} (hP : P.Reduced) (b : Bool) {k : ℕ} (hk : k < 16) :
    (ofPoint (P.flip b)).get k = ((ofPoint P).get k).flip (b && isOdd k) := by
  have h := getD_progression_flip hP.toExtended reduced_zero b false (Nat.le_of_lt_succ hk)
  rw [Bool.false_xor] at h
  rw [get_ofPoint, get_ofPoint, Point.toExtended_flip hP, ← h]
  rfl

end Multiples

/-- A factor, the point that it belongs to, and whether that point gets its sign changed. -/
structure Term where
  factor : ℕ
  point : Point
  flipped : Bool

namespace Term

def plain (t : Term) : ℕ × Multiples := (t.factor, .ofPoint t.point)

def signed (t : Term) : ℕ × Multiples := (t.factor, .ofPoint (t.point.flip t.flipped))

def high (t : Term) : Term := { t with factor := t.factor / 16 }

def parity (b : Bool) (ts : List Term) : Bool :=
  ts.foldl (fun b t => b ^^ (t.flipped && isOdd t.factor)) b

end Term

open Term Extended

theorem reduced_foldl_add {acc : Extended} (hacc : acc.Reduced) (terms : List (ℕ × Multiples)) :
    (terms.foldl (fun acc t => acc.add (t.2.get (t.1 % 16))) acc).Reduced := by
  induction terms generalizing acc with
  | nil => exact hacc
  | cons t terms ih => exact ih (reduced_add _ _)

theorem foldl_add_signed {ts : List Term} (hts : ∀ t ∈ ts, t.point.Reduced) {acc : Extended}
    (hacc : acc.Reduced) (b : Bool) :
    (ts.map signed).foldl (fun acc t => acc.add (t.2.get (t.1 % 16))) (acc.flip b) =
      ((ts.map plain).foldl (fun acc t => acc.add (t.2.get (t.1 % 16))) acc).flip (parity b ts) := by
  induction ts generalizing acc b with
  | nil => rfl
  | cons t ts ih =>
    have ht := hts t (List.mem_cons_self ..)
    have hrest := fun u hu => hts u (List.mem_cons_of_mem _ hu)
    have hentry := Multiples.get_flip ht t.flipped (Nat.mod_lt t.factor (by decide))
    have hreduced := Multiples.reduced_get t.point (t.factor % 16)
    rw [List.map_cons, List.map_cons, List.foldl_cons, List.foldl_cons, signed, hentry,
      add_flip_right (hacc.flip b) hreduced, add_flip_left hacc hreduced,
      flip_flip (reduced_add _ _), isOdd_mod_sixteen]
    exact ih hrest (reduced_add _ _) _

theorem reduced_sumOfMultiples (n : ℕ) (terms : List (ℕ × Multiples)) :
    (sumOfMultiples n terms).Reduced := by
  cases n with
  | zero => exact reduced_zero
  | succ n => exact reduced_foldl_add (reduced_double _) terms

theorem sumOfMultiples_succ (n : ℕ) (terms : List (ℕ × Multiples)) : sumOfMultiples (n + 1) terms =
    terms.foldl (fun acc t => acc.add (t.2.get (t.1 % 16)))
      (sumOfMultiples n (terms.map fun t => (t.1 / 16, t.2))).double.double.double.double := by
  rw [sumOfMultiples]

theorem map_high {f : Term → ℕ × Multiples} (hf : ∀ t, f t.high = ((f t).1 / 16, (f t).2))
    (ts : List Term) : (ts.map f).map (fun t => (t.1 / 16, t.2)) = (ts.map high).map f := by
  simp [hf]

theorem sumOfMultiples_succ_signed {n : ℕ} {ts : List Term} (hts : ∀ t ∈ ts, t.point.Reduced)
    (h : (sumOfMultiples n ((ts.map high).map signed)).double =
      (sumOfMultiples n ((ts.map high).map plain)).double) :
    sumOfMultiples (n + 1) (ts.map signed) =
      (sumOfMultiples (n + 1) (ts.map plain)).flip (parity false ts) := by
  have hsigned := map_high (f := signed) (fun _ => rfl) ts
  have hplain := map_high (f := plain) (fun _ => rfl) ts
  rw [sumOfMultiples_succ, sumOfMultiples_succ, hsigned, hplain, h]
  have hstart := foldl_add_signed hts
    (reduced_double (sumOfMultiples n ((ts.map high).map plain)).double.double.double) false
  rw [flip_false] at hstart
  exact hstart

/-- Signs of the points are lost when the sum is doubled. -/
theorem double_sumOfMultiples_signed (n : ℕ) {ts : List Term} (hts : ∀ t ∈ ts, t.point.Reduced) :
    (sumOfMultiples n (ts.map signed)).double = (sumOfMultiples n (ts.map plain)).double := by
  induction n generalizing ts with
  | zero => rw [sumOfMultiples, sumOfMultiples]
  | succ n ih =>
    have hhigh : ∀ t ∈ ts.map high, t.point.Reduced := by simpa [high] using hts
    rw [sumOfMultiples_succ_signed hts (ih hhigh), double_flip (reduced_sumOfMultiples _ _)]

theorem sumOfMultiples_signed (n : ℕ) {ts : List Term} (hts : ∀ t ∈ ts, t.point.Reduced) :
    sumOfMultiples (n + 1) (ts.map signed) =
      (sumOfMultiples (n + 1) (ts.map plain)).flip (parity false ts) := by
  have hhigh : ∀ t ∈ ts.map high, t.point.Reduced := by simpa [high] using hts
  exact sumOfMultiples_succ_signed hts (double_sumOfMultiples_signed n hhigh)

namespace Point

theorem smul_flip {P : Point} (hP : P.Reduced) (b : Bool) (a : ℕ) :
    (P.flip b).smul a = (P.smul a).flip (b && isOdd a) := by
  have hts : ∀ t ∈ [(⟨a, P, b⟩ : Term)], t.point.Reduced := by simpa using hP
  have h := sumOfMultiples_signed 63 hts
  have hsum := congrArg Extended.toPoint h
  rw [Extended.toPoint_flip (reduced_sumOfMultiples _ _)] at hsum
  simpa [parity, smul, signed, plain] using hsum

theorem smulAdd_flip {P Q : Point} (hP : P.Reduced) (hQ : Q.Reduced) (c : Bool) (a b : ℕ) :
    P.smulAdd a b (Q.flip c) = (P.smulAdd a b Q).flip (c && isOdd b) := by
  have hts : ∀ t ∈ [(⟨a, P, false⟩ : Term), ⟨b, Q, c⟩], t.point.Reduced := by simp [hP, hQ]
  have h := sumOfMultiples_signed 63 hts
  have hsum := congrArg Extended.toPoint h
  rw [Extended.toPoint_flip (reduced_sumOfMultiples _ _)] at hsum
  simpa [parity, smulAdd, signed, plain] using hsum

def orderTwo : Point := ⟨0, p - 1⟩

theorem reduced_toPoint (P : Extended) : P.toPoint.Reduced := ⟨mul_lt _ _, mul_lt _ _⟩

theorem reduced_zero : Point.zero.Reduced := ⟨by decide, by decide⟩

theorem add_zero {P : Point} (hP : P.Reduced) : P.add .zero = P := by
  have hz : (P.toExtended.add Point.zero.toExtended).z = 4 := by
    simp only [Extended.add, toExtended, zero, mul, Nat.mul_zero, Nat.zero_mul, Nat.zero_mod]
    decide
  have hfour : ((4 : ℕ) : ZMod p) * (inv 4 : ℕ) = 1 := by
    rw [cast_inv]
    exact mul_inv_cancel₀ (by decide)
  have hx : ((P.toExtended.add Point.zero.toExtended).x : ZMod p) = (4 : ℕ) * P.x := by
    simp only [Extended.add, toExtended, zero, cast_mul, cast_add_sub, Nat.cast_add, hP.x_lt, p_pos,
      mul_lt]
    push_cast
    ring
  have hy : ((P.toExtended.add Point.zero.toExtended).y : ZMod p) = (4 : ℕ) * P.y := by
    simp only [Extended.add, toExtended, zero, cast_mul, cast_add_sub, Nat.cast_add, hP.x_lt, p_pos]
    push_cast
    ring
  have hinv : ∀ {a b : ℕ}, (a : ZMod p) = (4 : ℕ) * b → b < p → mul a (inv 4) = b := by
    intro a b ha hb
    apply Coordinate.eq_of_cast (mul_lt _ _) hb
    rw [cast_mul, ha, mul_right_comm, hfour, one_mul]
  rw [add, Extended.toPoint, hz, hinv hx hP.x_lt, hinv hy hP.y_lt]

/-- To add the point of order two is to change the sign of both coordinates. -/
theorem add_orderTwo {P : Point} (hP : P.Reduced) : P.add orderTwo = P.flip true := by
  have htwo : orderTwo = Point.zero.flip true := by decide
  have hsum := add_zero hP
  rw [add] at hsum
  rw [htwo, add, toExtended_flip reduced_zero,
    add_flip_right hP.toExtended reduced_zero.toExtended,
    Extended.toPoint_flip (reduced_add _ _), hsum]

end Point
end ConfidentialTx.Edwards
