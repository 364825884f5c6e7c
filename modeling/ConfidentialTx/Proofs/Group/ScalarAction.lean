import ConfidentialTx.Commitment
import Mathlib.Algebra.Field.ZMod
import Mathlib.Data.Int.Cast.Lemmas
import Mathlib.Data.ZMod.Basic
import Mathlib.GroupTheory.OrderOfElement

/-! The laws that all schemes share. Nothing is assumed about the points that keys stand for, about
the second generator or about hashed points; what needs one of these says so. -/
namespace ConfidentialTx

theorem map_foldl_add {α M : Type} [AddMonoid M] {f : α → M} {add : α → α → α}
    (h : ∀ a b, f (add a b) = f a + f b) (start : α) (as : List α) :
    f (as.foldl add start) = f start + (as.map f).sum := by
  induction as generalizing start with
  | nil => simp
  | cons a as ih => rw [List.foldl_cons, ih, h, List.map_cons, List.sum_cons, add_assoc]

namespace KeyGroup

/-- Scalars are the integers modulo a prime and act on an abelian group of points through their
representatives; the prime takes the base point to zero. -/
class ScalarAction (C : KeyGroup) extends AddCommGroup C.Point where
  order : ℕ
  order_prime : order.Prime
  residue : C.Scalar ≃ ZMod order
  residue_ofAmount : ∀ v, residue (C.scalarOfAmount v) = v.toNat
  residue_add : ∀ a b, residue (C.scalarAdd a b) = residue a + residue b
  residue_sub : ∀ a b, residue (C.scalarSub a b) = residue a - residue b
  residue_mulSub : ∀ a b c, residue (C.scalarMulSub a b c) = residue c - residue a * residue b
  isZero_iff : ∀ a, C.scalarIsZero a = true ↔ residue a = 0
  base : C.Point
  zero_eq : C.zero = 0
  add_eq : ∀ P Q, C.add P Q = P + Q
  sub_eq : ∀ P Q, C.sub P Q = P - Q
  smulBase_eq : ∀ a, C.smulBase a = (residue a).val • base
  smul_eq : ∀ a P, C.smul a P = (residue a).val • P
  smulAddBase_eq : ∀ a P b, C.smulAddBase a P b = C.smul a P + C.smulBase b
  smulAdd_eq : ∀ a P b Q, C.smulAdd a P b Q = C.smul a P + C.smul b Q
  order_nsmul_base : order • base = 0

namespace ScalarAction

variable {C : KeyGroup} [ScalarAction C]

instance : Fact (order C).Prime := ⟨order_prime⟩

theorem residue_foldl_add (start : C.Scalar) (ss : List C.Scalar) :
    residue (ss.foldl C.scalarAdd start) = residue start + (ss.map residue).sum :=
  map_foldl_add residue_add start ss

theorem residue_foldl_sub (start : C.Scalar) (ss : List C.Scalar) :
    residue (ss.foldl C.scalarSub start) = residue start - (ss.map residue).sum := by
  induction ss generalizing start with
  | nil => simp
  | cons s ss ih => rw [List.foldl_cons, ih, residue_sub, List.map_cons, List.sum_cons, sub_sub]

theorem total_eq (start : C.Point) (points : List C.Point) :
    Commitment.total C start points = start + points.sum := by
  have h := map_foldl_add (f := id) add_eq start points
  rwa [List.map_id] at h

theorem scalarMulSub_comm (a b c : C.Scalar) : C.scalarMulSub a b c = C.scalarMulSub b a c := by
  apply residue.injective
  rw [residue_mulSub, residue_mulSub, mul_comm]

/-- The multiples of a point that the order takes to zero. -/
def multiple (P : C.Point) (hP : order C • P = 0) : ZMod (order C) →+ C.Point :=
  ZMod.lift (order C) ⟨zmultiplesHom C.Point P, by simpa using hP⟩

variable {P : C.Point} (hP : order C • P = 0)

@[simp] theorem multiple_natCast (n : ℕ) : multiple P hP n = n • P := by
  rw [← Int.cast_natCast, multiple, ZMod.lift_coe, zmultiplesHom_apply, natCast_zsmul]

theorem val_nsmul (x : ZMod (order C)) : x.val • P = multiple P hP x := by
  rw [← multiple_natCast hP, ZMod.natCast_zmod_val]

theorem multiple_mul (x y : ZMod (order C)) :
    multiple P hP (x * y) = x.val • multiple P hP y := by
  rw [← map_nsmul, nsmul_eq_mul, ZMod.natCast_zmod_val]

theorem smulBase_eq_multiple (a : C.Scalar) :
    C.smulBase a = multiple base order_nsmul_base (residue a) := by
  rw [smulBase_eq, val_nsmul order_nsmul_base]

theorem smulBase_add (a b : C.Scalar) :
    C.smulBase (C.scalarAdd a b) = C.smulBase a + C.smulBase b := by
  simp only [smulBase_eq_multiple, residue_add, map_add]

theorem smulBase_foldl_add (ss : List C.Scalar) :
    C.smulBase (ss.foldl C.scalarAdd (C.scalarOfAmount 0)) = (ss.map C.smulBase).sum := by
  have hzero : C.smulBase (C.scalarOfAmount 0) = 0 := by
    rw [smulBase_eq_multiple, residue_ofAmount, UInt64.toNat_zero, Nat.cast_zero, map_zero]
  rw [map_foldl_add smulBase_add, hzero, zero_add]

/-- If a multiple of one point is a multiple of another, the first is itself a multiple of the
second, unless the factor is zero. -/
theorem eq_multiple_of_multiple_eq {Q : C.Point} (hQ : order C • Q = 0) {x y : ZMod (order C)}
    (hx : x ≠ 0) (h : multiple P hP x = multiple Q hQ y) : P = multiple Q hQ (x⁻¹ * y) := by
  calc P = multiple P hP ((1 : ℕ) : ZMod (order C)) := by rw [multiple_natCast, one_nsmul]
    _ = multiple P hP (x⁻¹ * x) := by rw [Nat.cast_one, inv_mul_cancel₀ hx]
    _ = x⁻¹.val • multiple Q hQ y := by rw [multiple_mul, h]
    _ = multiple Q hQ (x⁻¹ * y) := (multiple_mul hQ _ _).symm

end ScalarAction
end KeyGroup
end ConfidentialTx
