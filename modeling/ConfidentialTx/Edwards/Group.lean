import ConfidentialTx.KeyGroup
import ConfidentialTx.Residue
import ConfidentialTx.Edwards.Coding
import ConfidentialTx.Edwards.FieldMap
import ConfidentialTx.Edwards.Multiple

/-! The group that the network uses: the points of the Edwards curve, with scalars modulo the
order of the base point. -/
namespace ConfidentialTx.Edwards

/-- The order of the base point: the prime `2 ^ 252 + 27742317777372353535851937790883648493`. -/
def order : Nat := 0x1000000000000000000000000000000014def9dea2f79cd65812631a5cf5d3ed

theorem order_pos : 0 < order := by decide

/-- The second generator: eight times the point that the digest of the base point encodes. -/
def amountBase : Point :=
  ⟨0x6188ae4072004cb85d56ab7ef9cf37716accacce8627eefa68746649386fd873,
    0x141f9cd30d3a172ca9cf5441d551726cead0adf19fdcea2aaf9937157059658b⟩

theorem amountBase_onCurve : amountBase.OnCurve := by decide

def group : KeyGroup where
  Scalar := Fin order
  Point := Point
  scalarDecEq := inferInstance
  pointDecEq := inferInstance
  reduceWide := fun block => Residue.ofBytes order_pos block.toList
  reduce := fun block => Residue.ofBytes order_pos block.toList
  scalar? := Residue.ofKey? order
  scalarOfAmount := fun v => Residue.ofNat order_pos v.toNat
  scalarKey := Residue.toKey
  scalarAdd := fun a b => a + b
  scalarSub := fun a b => a - b
  scalarMulSub := fun a b c => c - a * b
  scalarIsZero := fun a => a.val == 0
  point? := Point.ofKey?
  pointKey := Point.toKey
  pointOfDigest := Point.ofDigest
  zero := .zero
  amountBase := amountBase
  add := Point.add
  sub := Point.sub
  smulBase := fun a => Point.smulBase a.val
  smul := fun a P => P.smul a.val
  smulAddBase := fun a P b => P.smulAddBase a.val b.val
  smulAdd := fun a P b Q => P.smulAdd a.val b.val Q
  mulByCofactor := Point.mulByCofactor

end ConfidentialTx.Edwards
