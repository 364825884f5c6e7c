import ConfidentialTx.Amount
import ConfidentialTx.Confidential.Wire
import ConfidentialTx.RingSignature

/-! Transactions. Version 1 shows its amounts and has a ring signature for every input; later
versions have one confidential signature. -/
namespace ConfidentialTx

namespace Transaction

inductive Input where
  /-- The reward of the block at a height. -/
  | coinbase (height : UInt64)
  /-- One of several outputs, each given by its distance from the one before it. -/
  | spend (amount : UInt64) (offsets : List UInt64) (keyImage : Key)
  deriving DecidableEq, Inhabited

namespace Input

def ringSize : Input → Nat
  | coinbase _ => 0
  | spend _ offsets _ => offsets.length

def keyImage? : Input → Option Key
  | coinbase _ => none
  | spend _ _ keyImage => some keyImage

end Input

/-- A payment to a one-time key. The amount is zero where it is hidden. -/
structure Output where
  amount : UInt64
  key : Key
  deriving DecidableEq, Inhabited

/-- The part of a transaction that is signed. -/
structure Body where
  version : UInt64
  /-- A block height or a time before which the outputs cannot be spent. -/
  unlockTime : UInt64
  inputs : List Input
  outputs : List Output
  extra : List UInt8
  deriving DecidableEq, Inhabited

def Body.outputSum? (b : Body) : Option UInt64 := Amount.sum? 0 (b.outputs.map (·.amount))

/-- The number of other ring members, which is the same for all inputs that have a ring. -/
def uniformMixin (inputs : List Input) : Except Error Nat :=
  match (inputs.filter fun i => i.keyImage?.isSome).map Input.ringSize with
  | [] => .ok 0
  | size :: sizes =>
    match sizes.find? (· ≠ size) with
    | some other => .error (.inconsistentRingSize size other)
    | none => .ok (size - 1)

inductive Signatures where
  | ring (signatures : List RingSignature)
  | confidential (signature : Confidential.Signature)
  deriving DecidableEq, Inhabited

/-- Whether what the wire leaves out has been filled in. -/
inductive State where
  | parsed
  | expanded
  deriving DecidableEq, Inhabited

def State.text : State → String
  | parsed => "Parsed"
  | expanded => "Expanded"

end Transaction

structure Transaction where
  body : Transaction.Body
  signatures : Transaction.Signatures
  state : Transaction.State
  deriving DecidableEq, Inhabited

namespace Transaction

def ringSignatures? (t : Transaction) : Option (List RingSignature) :=
  match t.signatures with
  | .ring signatures => some signatures
  | .confidential _ => none

def confidential? (t : Transaction) : Option Confidential.Signature :=
  match t.signatures with
  | .ring _ => none
  | .confidential signature => some signature

def checkRingSizes : List Input → List RingSignature → Except Error Unit
  | i :: inputs, s :: signatures =>
    if i.ringSize ≠ s.size then .error (.shapeMismatch "ring signature" i.ringSize s.size)
    else checkRingSizes inputs signatures
  | _, _ => .ok ()

/-- A version 1 transaction, with a signature for each input and of the size of its ring. -/
def ofRingSignatures (body : Body) (signatures : List RingSignature) : Except Error Transaction :=
  if body.version ≠ 1 then
    .error (.invalidArgument "ring signatures need a version 1 prefix")
  else if signatures.length ≠ body.inputs.length then
    .error (.shapeMismatch "ring signatures" body.inputs.length signatures.length)
  else do
    checkRingSizes body.inputs signatures
    pure ⟨body, .ring signatures, .parsed⟩

/-- A transaction with a confidential signature. It has to be expanded before it can be
verified, as if it had been read from the wire. -/
def ofConfidential (body : Body) (s : Confidential.Signature) : Except Error Transaction :=
  if body.version < 2 then .error (.invalidArgument "RingCT needs a version 2 prefix")
  else if s.kind = .null then .ok ⟨body, .confidential s, .parsed⟩
  else if s.outputs.length ≠ body.outputs.length then
    .error (.shapeMismatch "output commitments" body.outputs.length s.outputs.length)
  else do
    let _ ← uniformMixin body.inputs
    pure ⟨body, .confidential s, .parsed⟩

end Transaction
end ConfidentialTx
