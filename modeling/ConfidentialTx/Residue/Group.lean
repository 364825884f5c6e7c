import ConfidentialTx.Residue
import ConfidentialTx.KeyGroup

/-! The additive group of the integers modulo a prime, with base point one. Every point is its
own logarithm, so nothing is hidden in it; the schemes only need that the laws hold. -/
namespace ConfidentialTx.Residue

/-- The additive group modulo `n`, with base point one. -/
def modularGroup (n : Nat) (hn : 0 < n) : KeyGroup where
  Scalar := Fin n
  Point := Fin n
  scalarDecEq := inferInstance
  pointDecEq := inferInstance
  reduceWide := fun block => ofBytes hn block.toList
  reduce := fun block => ofBytes hn block.toList
  scalar? := ofKey? n
  scalarOfAmount := fun v => ofNat hn v.toNat
  scalarKey := toKey
  scalarAdd := fun a b => a + b
  scalarSub := fun a b => a - b
  scalarMulSub := fun a b c => c - a * b
  scalarIsZero := fun a => a.val == 0
  point? := ofKey? n
  pointKey := toKey
  pointOfDigest := fun h => ofBytes hn h.toList
  zero := ⟨0, hn⟩
  amountBase := ofNat hn 0x123456789abcdef0
  add := fun P Q => P + Q
  sub := fun P Q => P - Q
  smulBase := fun a => a
  smul := fun a P => a * P
  smulAddBase := fun a P b => a * P + b
  smulAdd := fun a P b Q => a * P + b * Q
  mulByCofactor := fun P => P

/-- The prime `2 ^ 61 - 1`. -/
def order : Nat := 0x1fffffffffffffff

theorem order_pos : 0 < order := by decide

abbrev group : KeyGroup := modularGroup order order_pos

end ConfidentialTx.Residue
