import ConfidentialTx.Confidential.Verification
import ConfidentialTx.Transaction.Expansion

/-! Deciding about transactions. -/
namespace ConfidentialTx.Transaction

inductive Rejection where
  | ringSignature (input : Nat) (cause : RingSignature.Rejection)
  deriving DecidableEq, Inhabited

def Rejection.lines : Rejection → List String
  | ringSignature input cause => cause.lines ++ [s!"ring signature of input {input} is invalid"]

variable (C : KeyGroup)

/-- The signatures of the inputs from number `i` on; inputs without a ring are passed over. -/
def checkRingSignaturesFrom (message : Digest) (i : Nat) :
    List Input → List (List Key) → List RingSignature → Except Rejection Unit
  | input :: inputs, ring :: rings, s :: ss =>
    match input.keyImage? with
    | none => checkRingSignaturesFrom message (i + 1) inputs rings ss
    | some image =>
      match RingSignature.check C message image ring s with
      | .error cause => .error (.ringSignature i cause)
      | .ok _ => checkRingSignaturesFrom message (i + 1) inputs rings ss
  | _, _, _ => .ok ()

def checkRingSignatures (t : Transaction) (rings : List (List Key)) :
    Except Error (Except Rejection Unit) :=
  match t.signatures with
  | .confidential _ => .error (.invalidArgument "not a version 1 transaction")
  | .ring signatures =>
    if rings.length ≠ t.body.inputs.length then
      .error (.shapeMismatch "ring public keys" t.body.inputs.length rings.length)
    else .ok (checkRingSignaturesFrom C t.body.hash 0 t.body.inputs rings signatures)

def verifyRingSignatures (t : Transaction) (rings : List (List Key)) : Except Error Bool :=
  (checkRingSignatures C t rings).map Except.isOk

def checkConfidential (t : Transaction) : Except Error Confidential.Verdict :=
  match t.signatures with
  | .ring _ => .error (.invalidArgument "not a RingCT transaction")
  | .confidential s =>
    if s.kind = .null then .ok (.ok ())
    else if t.state ≠ .expanded then .error .notExpanded
    else Confidential.check C s

def verifyConfidential (t : Transaction) : Except Error Bool :=
  (checkConfidential C t).map Except.isOk

end ConfidentialTx.Transaction
