import ConfidentialTx.Proofs.Group.Residue

/-! Extraction. Two responses to different challenges, given to one nonce, give away the logarithm that
they were computed with. In a group of prime order, equal challenges leave no choice of the
response. -/
namespace ConfidentialTx.KeyGroup

open ScalarAction

/-- The points are the multiples of the base point, and there are as many as scalars. -/
class PrimeOrder (C : KeyGroup) [ScalarAction C] : Prop where
  card_point : Nat.card C.Point = order C
  mem_zmultiples : ∀ P : C.Point, P ∈ AddSubgroup.zmultiples (base : C.Point)

variable {C : KeyGroup} [ScalarAction C]

namespace PrimeOrder

variable [PrimeOrder C]

theorem order_nsmul (P : C.Point) : order C • P = 0 := by
  rw [← card_point]
  exact card_nsmul_eq_zero'

theorem base_ne_zero : (base : C.Point) ≠ 0 := by
  intro hbase
  have hzero : ∀ P : C.Point, P = 0 := fun P => by
    simpa [hbase] using mem_zmultiples P
  have hcard : Nat.card C.Point = 1 :=
    Nat.card_eq_one_iff_unique.mpr ⟨⟨fun P Q => (hzero P).trans (hzero Q).symm⟩, ⟨0⟩⟩
  exact (order_prime (C := C)).one_lt.ne' (card_point.symm.trans hcard)

theorem smulBase_injective : Function.Injective C.smulBase := by
  intro a b h
  by_contra hne
  have hresidue : residue a - residue b ≠ 0 :=
    sub_ne_zero.mpr fun he => hne (residue.injective he)
  have hzero : multiple base order_nsmul_base (residue a - residue b) =
      multiple base order_nsmul_base (0 : ZMod (order C)) := by
    rw [map_sub, map_zero, ← smulBase_eq_multiple, ← smulBase_eq_multiple, h, sub_self]
  have hbase := eq_multiple_of_multiple_eq order_nsmul_base order_nsmul_base hresidue hzero
  rw [mul_zero, map_zero] at hbase
  exact base_ne_zero hbase

theorem response_eq {c r r' : C.Scalar} {P : C.Point}
    (h : C.smulAddBase c P r = C.smulAddBase c P r') : r = r' := by
  rw [smulAddBase_eq, smulAddBase_eq, add_left_cancel_iff] at h
  exact smulBase_injective h

end PrimeOrder

/-- The logarithm that the responses `r` to `c` and `r'` to `c'` give away. -/
def extracted (c r c' r' : C.Scalar) : C.Scalar :=
  residue.symm ((residue r' - residue r) / (residue c - residue c'))

/-- Two pairs of challenge and response that lead to one point say how `P` is a multiple of `Q`. -/
theorem eq_smul_extracted {P Q : C.Point} (hP : order C • P = 0) (hQ : order C • Q = 0)
    {c r c' r' : C.Scalar} (hc : c ≠ c') (h : C.smul r Q + C.smul c P = C.smul r' Q + C.smul c' P) :
    P = C.smul (extracted c r c' r') Q := by
  have hne : residue c - residue c' ≠ 0 := sub_ne_zero.mpr fun he => hc (residue.injective he)
  simp only [smul_eq, val_nsmul hP, val_nsmul hQ] at h
  have hmultiple : multiple P hP (residue c - residue c') =
      multiple Q hQ (residue r' - residue r) := by
    rw [map_sub, map_sub, sub_eq_sub_iff_add_eq_add, add_comm, h, add_comm]
  rw [smul_eq, val_nsmul hQ, extracted, Equiv.apply_symm_apply, div_eq_inv_mul]
  exact eq_multiple_of_multiple_eq hP hQ hne hmultiple

theorem eq_smulBase_extracted {P : C.Point} (hP : order C • P = 0) {c r c' r' : C.Scalar}
    (hc : c ≠ c') (h : C.smulAddBase c P r = C.smulAddBase c' P r') :
    P = C.smulBase (extracted c r c' r') := by
  have hbase : ∀ a : C.Scalar, C.smulBase a = C.smul a base := fun a => by rw [smulBase_eq, smul_eq]
  rw [smulAddBase_eq, smulAddBase_eq, hbase, hbase, add_comm, add_comm (C.smul c' P)] at h
  rw [hbase]
  exact eq_smul_extracted hP order_nsmul_base hc h

theorem eq_smul_extracted_of_smulAdd {P Q : C.Point} (hP : order C • P = 0) (hQ : order C • Q = 0)
    {c r c' r' : C.Scalar} (hc : c ≠ c') (h : C.smulAdd r Q c P = C.smulAdd r' Q c' P) :
    P = C.smul (extracted c r c' r') Q := by
  rw [smulAdd_eq, smulAdd_eq] at h
  exact eq_smul_extracted hP hQ hc h

end ConfidentialTx.KeyGroup

namespace ConfidentialTx.Residue

open KeyGroup

instance (n : ℕ) (hn : 0 < n) [Fact n.Prime] [Fact (n ≤ Bytes.bound 32)] :
    PrimeOrder (modularGroup n hn) where
  card_point := Nat.card_fin n
  mem_zmultiples := fun (P : Fin n) => by
    have : NeZero n := ⟨hn.ne'⟩
    refine AddSubgroup.mem_zmultiples_iff.mpr ⟨(ZMod.finEquiv n P).val, ?_⟩
    rw [natCast_zsmul]
    exact (eq_val_nsmul_one P).symm

end ConfidentialTx.Residue
