import ConfidentialTx.Confidential.Basic

/-! Reading one's own outputs. -/
namespace ConfidentialTx.Confidential

variable (C : KeyGroup)

/-- The amount and the mask of output number `index`, checked against its commitment. -/
def openOutput (s : Signature) (index : Nat) (secret : Key) :
    Except Error (UInt64 × C.Scalar) :=
  match s.maskedAmounts[index]?, s.outputs[index]? with
  | some masked, some coin => do
    let (amount, mask) ← masked.decode C secret
    if C.pointKey (Commitment.commit C amount mask) = coin.commitment then pure (amount, mask)
    else .error .commitmentMismatch
  | _, _ => .error (.invalidArgument "output index out of range")

end ConfidentialTx.Confidential
