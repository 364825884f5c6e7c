import ConfidentialTx.Confidential.Wire
import ConfidentialTx.RingSignature
import ConfidentialTx.Wire.Cursor

/-! Reading signatures from a slice, ring signatures and confidential ones. -/
namespace ConfidentialTx

open Wire

def RingElement.scan : Scan RingElement := do
  let challenge ← Scan.key "ring signature c"
  let response ← Scan.key "ring signature r"
  pure ⟨challenge, response⟩

def RingSignature.scan (ringSize : Nat) : Scan RingSignature := do
  let left ← Scan.remaining
  if left < saturate (ringSize * 64) then Scan.fail (.truncated "ring signature")
  else do
    let elements ← RingElement.scan.times ringSize
    pure ⟨elements⟩

namespace Confidential

def kindScan : Scan Kind := do
  let tag ← Scan.byte "RingCT type"
  Scan.ofExcept (Kind.ofTag tag)

def maskedAmountScan : Scan MaskedAmount := do
  let mask ← Scan.key "ecdh mask"
  let amount ← Scan.key "ecdh amount"
  pure ⟨mask, amount, .zero⟩

def outputScan : Scan Coin := do
  let commitment ← Scan.key "output commitment"
  pure ⟨.zero, commitment⟩

def rangeProofScan : Scan RangeProof := do
  let first ← (Scan.key "borromean s0").tuple 64
  let second ← (Scan.key "borromean s1").tuple 64
  let challenge ← Scan.key "borromean ee"
  let bits ← (Scan.key "bit commitment").tuple 64
  pure ⟨⟨first, second, challenge⟩, bits⟩

def spendProofScan (columns rows : Nat) : Scan Mlsag.Signature := do
  let responses ← ((Scan.key "MLSAG response").times rows).times columns
  let challenge ← Scan.key "MLSAG challenge"
  pure ⟨responses, challenge, []⟩

def spendShape? (kind : Kind) (inputs : Nat) : Option (Nat × Nat) :=
  match kind with
  | .simple => some (inputs, 2)
  | _ => (addSizes? inputs 1).map fun rows => (1, rows)

def fieldsScan (kind : Kind) (inputs outputs ringSize : Nat) : Scan Signature := do
  let fee ← Scan.varint "transaction fee"
  let pseudoOutputs ← (Scan.key "pseudo output").times (pseudoCount kind inputs)
  let maskedAmounts ← maskedAmountScan.times outputs
  let coins ← outputScan.times outputs
  let rangeProofs ← rangeProofScan.times outputs
  let (proofs, rows) ← Scan.ofOption (spendShape? kind inputs)
  let spendProofs ← (spendProofScan ringSize rows).times proofs
  pure ⟨kind, .zero, [], pseudoOutputs, maskedAmounts, coins, fee, rangeProofs, spendProofs⟩

def Signature.scan (inputs outputs mixin : Nat) : Scan Signature := do
  let kind ← kindScan
  if kind = .null then pure .null
  else do
    let ringSize := saturate (mixin + 1)
    let left ← Scan.remaining
    if left < fieldsLength kind inputs outputs ringSize then
      Scan.fail (.truncated "RingCT signature")
    else fieldsScan kind inputs outputs ringSize

end Confidential
end ConfidentialTx
