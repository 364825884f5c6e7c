import ConfidentialTx.Confidential.Verification
import ConfidentialTx.Mlsag.InPlace

/-! Deciding about a confidential signature with values that are looked up by number. There is no
outcome if one of them is not there, or if a difference of lengths would be negative. -/
namespace ConfidentialTx

variable (C : KeyGroup)

namespace Borromean

/-- The last keys of the rings from number `i` on, `n` of them, if all responses are canonical. -/
def lastKeysAt (challenge : C.Scalar) (first second : List C.Point) (ss ts : List Key) :
    (n i : Nat) → Option (Option (List Key))
  | 0, _ => some (some [])
  | n + 1, i => do
    let s ← ss[i]?
    let t ← ts[i]?
    match C.scalar? s, C.scalar? t with
    | some s, some t => do
      let P ← first[i]?
      let Q ← second[i]?
      let ks ← lastKeysAt challenge first second ss ts n (i + 1)
      pure (ks.map (lastKey C challenge P Q s t :: ·))
    | _, _ => some none

def verifyAt (s : Signature) (first second : List C.Point) : Option Bool :=
  if first.length ≠ 64 ∨ second.length ≠ 64 then some false
  else
    match C.scalar? s.challenge with
    | none => some false
    | some c => do
      let ks ← lastKeysAt C c first second s.first.toList s.second.toList 64 0
      pure (match ks with
        | none => false
        | some ks => C.scalarKey (C.hashKeys ks) == s.challenge)

end Borromean

def RangeProof.checkAt (commitment : Key) (p : RangeProof) : Option (Except Rejection Unit) :=
  match C.point? commitment with
  | none => some (.error .commitment)
  | some P =>
    match p.bits.mapM C.point? 64 with
    | none => some (.error .bit)
    | some bits =>
      if C.pointKey (Commitment.total C C.zero bits.toList) ≠ C.pointKey P then some (.error .sum)
      else do
        let shifted := Tuple.zipWith C.sub bits (Commitment.amountPowers C)
        let valid ← Borromean.verifyAt C p.signature bits.toList shifted.toList
        pure (if valid then .ok () else .error .signature)

namespace Confidential

def checkRangesFromAt (i : Nat) : List Coin → List RangeProof → Option Verdict
  | coin :: coins, p :: ps => do
    match ← RangeProof.checkAt C coin.commitment p with
    | .error cause => some (.error (.rangeProof i cause))
    | .ok _ => checkRangesFromAt (i + 1) coins ps
  | _, _ => some (.ok ())

def checkRangesAt (s : Signature) : Option Verdict :=
  if s.outputs.length ≠ s.rangeProofs.length then
    some (.error (.proofCount s.outputs.length s.rangeProofs.length))
  else checkRangesFromAt C 0 s.outputs s.rangeProofs

def checkSimpleBalanceAt (s : Signature) : Option Verdict :=
  if s.kind ≠ .simple then some (.error (.notSimple s.kind))
  else
    match s.pseudoOutputs.mapM C.point? with
    | none => some (.error .pseudoOutput)
    | some points =>
      match outputSum C 0 (Commitment.ofFee C s.fee) s.outputs with
      | .error r => some (.error r)
      | .ok sum =>
        if C.pointKey (Commitment.total C C.zero points) ≠ C.pointKey sum then
          some (.error .balance)
        else checkRangesAt C s

def checkFullRangesAt (s : Signature) : Option Verdict :=
  if s.kind ≠ .full then some (.error (.notFull s.kind)) else checkRangesAt C s

def checkAmountsAt (s : Signature) : Option Verdict :=
  match s.kind with
  | .null => some (.ok ())
  | .full => checkFullRangesAt C s
  | .simple => checkSimpleBalanceAt C s

def withMatrixAt (reject : String → Rejection) (matrix : Except Error (List (List Key)))
    (decide : List (List Key) → Option (Except Error Verdict)) : Option (Except Error Verdict) :=
  match matrix with
  | .ok m => decide m
  | .error (.invalidPoint field) => some (.ok (.error (reject field)))
  | .error e => some (.error e)

def pred? : (n : Nat) → Option Nat
  | 0 => none
  | n + 1 => some n

def checkFullSpendAt (s : Signature) : Option (Except Error Verdict) :=
  if s.spendProofs.length ≠ 1 then
    some (.error (.shapeMismatch "MLSAG signatures" 1 s.spendProofs.length))
  else
    withMatrixAt .matrix (Mlsag.fullMatrix C s.rings s.outputs s.fee) fun m => do
      let column ← m[0]?
      let linkable ← pred? column.length
      let proof ← s.spendProofs[0]?
      if proof.images.length ≠ linkable then
        some (.error (.shapeMismatch "key images" linkable proof.images.length))
      else do
        let v ← Mlsag.checkInPlace C s.signedHash m proof linkable
        pure (.ok (v.mapError .spend))

def checkSpendsFromAt (message : Key) (i : Nat) :
    List (List Coin) → List Key → List Mlsag.Signature → Option (Except Error Verdict)
  | ring :: rings, pseudo :: pseudos, proof :: proofs =>
    withMatrixAt (.inputMatrix · i) (Mlsag.simpleMatrix C ring pseudo) fun m => do
      match ← Mlsag.checkInPlace C message m proof 1 with
      | .error cause => some (.ok (.error (.inputSpend i cause)))
      | .ok _ => checkSpendsFromAt message (i + 1) rings pseudos proofs
  | _, _, _ => some (.ok (.ok ()))

def checkSimpleSpendsAt (s : Signature) : Option (Except Error Verdict) :=
  let inputs := s.pseudoOutputs.length
  if s.rings.length ≠ inputs then some (.error (.shapeMismatch "mix ring" inputs s.rings.length))
  else if s.spendProofs.length ≠ inputs then
    some (.error (.shapeMismatch "MLSAG signatures" inputs s.spendProofs.length))
  else checkSpendsFromAt C s.signedHash 0 s.rings s.pseudoOutputs s.spendProofs

def checkSpendsAt (s : Signature) : Option (Except Error Verdict) :=
  match s.kind with
  | .null => some (.ok (.ok ()))
  | .full => if s.isBare then some (.error .notExpanded) else checkFullSpendAt C s
  | .simple => if s.isBare then some (.error .notExpanded) else checkSimpleSpendsAt C s

def checkAt (s : Signature) : Option (Except Error Verdict) := do
  match ← checkAmountsAt C s with
  | .error r => some (.ok (.error r))
  | .ok _ => checkSpendsAt C s

def verifyAt (s : Signature) : Option (Except Error Bool) :=
  (checkAt C s).map (Except.map Except.isOk)

end Confidential
end ConfidentialTx
