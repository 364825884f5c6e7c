import ConfidentialTx.Confidential.Wire
import ConfidentialTx.Mlsag.Matrix
import ConfidentialTx.Mlsag.Verification

/-! Deciding about confidential signatures: range proofs, the balance of a simple signature, and
spend proofs. A signature can be wrong, which is a verdict, or not be ready to be decided about,
which is a failure. -/
namespace ConfidentialTx.Confidential

inductive Rejection where
  | notSimple (kind : Kind)
  | notFull (kind : Kind)
  | pseudoOutput
  | output (index : Nat)
  | balance
  | proofCount (outputs proofs : Nat)
  | rangeProof (index : Nat) (cause : RangeProof.Rejection)
  | matrix (field : String)
  | inputMatrix (field : String) (input : Nat)
  | spend (cause : Mlsag.Rejection)
  | inputSpend (input : Nat) (cause : Mlsag.Rejection)
  deriving DecidableEq, Inhabited

/-- What is reported about a rejection, the cause before the consequence. -/
def Rejection.lines : Rejection → List String
  | notSimple kind => [s!"expected a simple RingCT signature, got {kind.text}"]
  | notFull kind => [s!"expected a full RingCT signature, got {kind.text}"]
  | pseudoOutput => ["pseudo output is not a valid point"]
  | output index => [s!"commitment of output {index} is not a valid point"]
  | balance => ["pseudo outputs do not balance outputs and fee"]
  | proofCount outputs proofs => [s!"{outputs} outputs but {proofs} range proofs"]
  | rangeProof index cause => cause.lines ++ [s!"range proof of output {index} is invalid"]
  | matrix field => [s!"{field} is not a valid point"]
  | inputMatrix field input => [s!"{field} of input {input} is not a valid point"]
  | spend cause => cause.lines
  | inputSpend input cause => cause.lines ++ [s!"MLSAG of input {input} is invalid"]

abbrev Verdict := Except Rejection Unit

variable (C : KeyGroup)

def checkRangesFrom (i : Nat) : List Coin → List RangeProof → Verdict
  | coin :: coins, p :: ps =>
    match RangeProof.check C coin.commitment p with
    | .error cause => .error (.rangeProof i cause)
    | .ok _ => checkRangesFrom (i + 1) coins ps
  | _, _ => .ok ()

def checkRanges (s : Signature) : Verdict :=
  if s.outputs.length ≠ s.rangeProofs.length then
    .error (.proofCount s.outputs.length s.rangeProofs.length)
  else checkRangesFrom C 0 s.outputs s.rangeProofs

def outputSum (i : Nat) (sum : C.Point) : List Coin → Except Rejection C.Point
  | [] => .ok sum
  | coin :: coins =>
    match C.point? coin.commitment with
    | none => .error (.output i)
    | some P => outputSum (i + 1) (C.add sum P) coins

/-- Pseudo outputs balance outputs and fee, and the range proofs are valid. -/
def checkSimpleBalance (s : Signature) : Verdict :=
  if s.kind ≠ .simple then .error (.notSimple s.kind)
  else
    match s.pseudoOutputs.mapM C.point? with
    | none => .error .pseudoOutput
    | some points => do
      let sum ← outputSum C 0 (Commitment.ofFee C s.fee) s.outputs
      if C.pointKey (Commitment.total C C.zero points) ≠ C.pointKey sum then .error .balance
      else checkRanges C s

/-- The range proofs are valid; the balance is left to the spend proof. -/
def checkFullRanges (s : Signature) : Verdict :=
  if s.kind ≠ .full then .error (.notFull s.kind) else checkRanges C s

/-- A key that is no point leads to a rejection, any other complaint is a failure. -/
def withMatrix (reject : String → Rejection) (matrix : Except Error (List (List Key)))
    (decide : List (List Key) → Except Error Verdict) : Except Error Verdict :=
  match matrix with
  | .ok m => decide m
  | .error (.invalidPoint field) => .ok (.error (reject field))
  | .error e => .error e

def checkFullSpend (s : Signature) : Except Error Verdict :=
  match s.spendProofs with
  | [proof] =>
    withMatrix .matrix (Mlsag.fullMatrix C s.rings s.outputs s.fee) fun m =>
      let linkable := (m.headD []).length - 1
      if proof.images.length ≠ linkable then
        .error (.shapeMismatch "key images" linkable proof.images.length)
      else .ok ((Mlsag.check C s.signedHash m proof linkable).mapError .spend)
  | proofs => .error (.shapeMismatch "MLSAG signatures" 1 proofs.length)

def checkSpendsFrom (message : Key) (i : Nat) :
    List (List Coin) → List Key → List Mlsag.Signature → Except Error Verdict
  | ring :: rings, pseudo :: pseudos, proof :: proofs =>
    withMatrix (.inputMatrix · i) (Mlsag.simpleMatrix C ring pseudo) fun m =>
      match Mlsag.check C message m proof 1 with
      | .error cause => .ok (.error (.inputSpend i cause))
      | .ok _ => checkSpendsFrom message (i + 1) rings pseudos proofs
  | _, _, _ => .ok (.ok ())

def checkSimpleSpends (s : Signature) : Except Error Verdict :=
  let inputs := s.pseudoOutputs.length
  if s.rings.length ≠ inputs then .error (.shapeMismatch "mix ring" inputs s.rings.length)
  else if s.spendProofs.length ≠ inputs then
    .error (.shapeMismatch "MLSAG signatures" inputs s.spendProofs.length)
  else checkSpendsFrom C s.signedHash 0 s.rings s.pseudoOutputs s.spendProofs

def Signature.isBare (s : Signature) : Bool :=
  s.rings.isEmpty || s.spendProofs.any fun proof => proof.images.isEmpty

def checkSpends (s : Signature) : Except Error Verdict :=
  match s.kind with
  | .null => .ok (.ok ())
  | .full => if s.isBare then .error .notExpanded else checkFullSpend C s
  | .simple => if s.isBare then .error .notExpanded else checkSimpleSpends C s

def checkAmounts (s : Signature) : Verdict :=
  match s.kind with
  | .null => .ok ()
  | .full => checkFullRanges C s
  | .simple => checkSimpleBalance C s

/-- The whole signature: range proofs, balance and spend proofs. -/
def check (s : Signature) : Except Error Verdict :=
  match checkAmounts C s with
  | .error r => .ok (.error r)
  | .ok _ => checkSpends C s

def verify (s : Signature) : Except Error Bool := (check C s).map Except.isOk

end ConfidentialTx.Confidential
