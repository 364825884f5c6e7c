import ConfidentialTx.Proofs.Group.Laws

/-! Responses. Someone who knows the logarithm `x` answers a challenge `c` with `a - c * x` for a
nonce `a`, and the verifier gets back the multiple by the nonce. This, and keys that decode, is all
that the completeness of a signature takes. -/
namespace ConfidentialTx.KeyGroup

/-- Responses give back the multiples of the base point and of hashed points by the nonce, and keys
give back what they encode. -/
class Responsive (C : KeyGroup) : Prop where
  smulAddBase_response : ∀ c x a,
    C.smulAddBase c (C.smulBase x) (C.scalarMulSub c x a) = C.smulBase a
  smulAdd_response : ∀ k c x a,
    C.smulAdd (C.scalarMulSub c x a) (C.hashToPoint k) c (C.smul x (C.hashToPoint k)) =
      C.smul a (C.hashToPoint k)
  point?_pointKey : ∀ P, C.point? (C.pointKey P) = some P
  scalar?_scalarKey : ∀ a, C.scalar? (C.scalarKey a) = some a

namespace ScalarAction

variable {C : KeyGroup} [ScalarAction C]

theorem smul_response {P : C.Point} (hP : order C • P = 0) (c x a : C.Scalar) :
    C.smul (C.scalarMulSub c x a) P + C.smul c (C.smul x P) = C.smul a P := by
  simp only [smul_eq, val_nsmul hP]
  rw [← multiple_mul hP, ← map_add, residue_mulSub, sub_add_cancel]

theorem smulAddBase_response (c x a : C.Scalar) :
    C.smulAddBase c (C.smulBase x) (C.scalarMulSub c x a) = C.smulBase a := by
  have hbase : ∀ s, C.smulBase s = C.smul s base := fun s => by rw [smulBase_eq, smul_eq]
  rw [smulAddBase_eq, hbase, hbase, hbase, add_comm, smul_response order_nsmul_base]

theorem responsive (hcofactor : ∀ P, order C • C.mulByCofactor P = 0)
    (hpoint : ∀ P, C.point? (C.pointKey P) = some P)
    (hscalar : ∀ k a, C.scalar? k = some a ↔ k = C.scalarKey a) : Responsive C where
  smulAddBase_response := smulAddBase_response
  smulAdd_response := fun k c x a => by
    rw [smulAdd_eq]
    exact smul_response (hcofactor _) c x a
  point?_pointKey := hpoint
  scalar?_scalarKey := fun a => (hscalar _ a).mpr rfl

end ScalarAction

instance (C : KeyGroup) [Lawful C] : Responsive C :=
  ScalarAction.responsive Lawful.order_nsmul_mulByCofactor Lawful.point?_pointKey
    Lawful.scalar?_eq_some_iff

end ConfidentialTx.KeyGroup
