import ConfidentialTx.Proofs.Group.ScalarAction

/-! Groups that obey all laws which the schemes count on. The groups of residues do; no instance is
given for `Edwards.group`, whose points are pairs of any two numbers, on the curve or not, so that
its operations are those of a group on some of its points only. -/
namespace ConfidentialTx.KeyGroup

/-- The order also takes the second generator and hashed points to zero, and keys and what they
stand for determine each other. -/
class Lawful (C : KeyGroup) extends ScalarAction C where
  order_nsmul_amountBase : order • C.amountBase = 0
  order_nsmul_mulByCofactor : ∀ P, order • C.mulByCofactor P = 0
  point?_pointKey : ∀ P, C.point? (C.pointKey P) = some P
  scalar?_eq_some_iff : ∀ k a, C.scalar? k = some a ↔ k = C.scalarKey a

attribute [simp] Lawful.point?_pointKey

end ConfidentialTx.KeyGroup
