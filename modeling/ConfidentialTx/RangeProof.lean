import ConfidentialTx.Borromean
import ConfidentialTx.Commitment

/-! Proofs that a commitment hides an amount of 64 bits. The commitment is the sum of 64 bit
commitments, and a signature shows that each of them commits to `0` or to `2 ^ i`. -/
namespace ConfidentialTx

structure RangeProof where
  signature : Borromean.Signature
  /-- Bit commitments, which add up to the commitment. -/
  bits : Tuple Key 64
  deriving DecidableEq, Inhabited

namespace RangeProof

def keyCount : Nat := 3 * 64 + 1

/-- The keys of a proof in the order in which they are written. -/
def keys (p : RangeProof) : List Key :=
  p.signature.first.toList ++ p.signature.second.toList ++
    p.signature.challenge :: p.bits.toList

@[simp] theorem length_keys (p : RangeProof) : p.keys.length = keyCount := by
  simp [keys, keyCount]

def toBytes (p : RangeProof) : List UInt8 := Key.concat p.keys

variable (C : KeyGroup)

/-- The bits of an amount, lowest first. -/
def amountBits (v : UInt64) : Tuple Bool 64 := ⟨(List.range 64).map v.toNat.testBit, by simp⟩

def commitBit (bit : Bool) (power : C.Point) : Draw (Borromean.Ring C) := do
  let mask ← Draw.scalar C
  let blinded := C.smulBase mask
  let P := if bit then C.add blinded power else blinded
  pure ⟨mask, P, C.sub P power, bit⟩

structure Proved where
  commitment : Key
  mask : C.Scalar
  proof : RangeProof

def prove (amount : UInt64) : Draw (Proved C) := do
  let rings ← (Tuple.zipWith Prod.mk (amountBits amount) (Commitment.amountPowers C)).mapM
    (fun b => commitBit C b.1 b.2) 64
  let signature ← Borromean.signRings C rings
  pure {
    commitment := C.pointKey (Commitment.total C C.zero (rings.map (·.first)).toList)
    mask := (rings.map (·.secret)).toList.foldl C.scalarAdd (C.scalarOfAmount 0)
    proof := ⟨signature, rings.map fun r => C.pointKey r.first⟩ }

inductive Rejection where
  | commitment
  | bit
  | sum
  | signature
  deriving DecidableEq, Inhabited

/-- What is reported about a rejection; most are silent. -/
def Rejection.lines : Rejection → List String
  | sum => ["bit commitments do not sum up to the output commitment"]
  | _ => []

def check (commitment : Key) (p : RangeProof) : Except Rejection Unit :=
  match C.point? commitment with
  | none => .error .commitment
  | some P =>
    match p.bits.mapM C.point? 64 with
    | none => .error .bit
    | some bits =>
      if C.pointKey (Commitment.total C C.zero bits.toList) ≠ C.pointKey P then .error .sum
      else
        let shifted := Tuple.zipWith C.sub bits (Commitment.amountPowers C)
        if Borromean.verifyRings C p.signature bits shifted then .ok () else .error .signature

def verify (commitment : Key) (p : RangeProof) : Bool := (check C commitment p).isOk

end RangeProof
end ConfidentialTx
