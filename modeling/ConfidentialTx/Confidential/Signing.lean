import ConfidentialTx.Confidential.Wire
import ConfidentialTx.Amount
import ConfidentialTx.Mlsag.Matrix
import ConfidentialTx.Mlsag.Signing

/-! Making confidential signatures. -/
namespace ConfidentialTx.Confidential

variable (C : KeyGroup)

structure Spent where
  /-- The logarithm of the destination. -/
  secret : C.Scalar
  mask : C.Scalar
  amount : UInt64

structure Payment where
  destination : Key
  amount : UInt64
  /-- Shared with the recipient. -/
  secret : Key
  deriving DecidableEq, Inhabited

structure Paid where
  coin : Coin
  maskedAmount : MaskedAmount
  proof : RangeProof
  mask : C.Scalar

/-- The amounts that go in are those that come out, and neither sum reaches `2 ^ 64`. -/
def checkBalance (spent : List (Spent C)) (payments : List Payment) (fee : UInt64) :
    Except Error Unit :=
  match Amount.sum? 0 (spent.map (·.amount)), Amount.sum? fee (payments.map (·.amount)) with
  | some ins, some outs =>
    if ins = outs then .ok ()
    else .error (.invalidArgument "input and output amounts do not balance")
  | _, _ => .error (.invalidArgument "input and output amounts do not balance")

def pay (payment : Payment) : Draw (Paid C) := do
  let proved ← RangeProof.prove C payment.amount
  pure {
    coin := ⟨payment.destination, proved.commitment⟩
    maskedAmount := MaskedAmount.encode C proved.mask payment.amount payment.secret
    proof := proved.proof
    mask := proved.mask }

def unsigned (kind : Kind) (message : Key) (rings : List (List Coin)) (pseudoOutputs : List Key)
    (fee : UInt64) (paid : List (Paid C)) : Signature where
  kind := kind
  message := message
  rings := rings
  pseudoOutputs := pseudoOutputs
  maskedAmounts := paid.map (·.maskedAmount)
  outputs := paid.map (·.coin)
  fee := fee
  rangeProofs := paid.map (·.proof)
  spendProofs := []

def sumScalars (ss : List C.Scalar) : C.Scalar := ss.foldl C.scalarAdd (C.scalarOfAmount 0)

/-- The first objection to making a full signature. -/
def checkFull (rings : List (List Coin)) (index : Nat) (spent : List (Spent C))
    (payments : List Payment) (fee : UInt64) : Except Error Unit :=
  if spent.isEmpty then .error (.invalidArgument "no inputs")
  else if rings.length ≤ index then .error (.invalidArgument "signer index outside of the ring")
  else
    match rings.find? fun column => column.length ≠ spent.length with
    | some column => .error (.shapeMismatch "mix ring column" spent.length column.length)
    | none => checkBalance C spent payments fee

/-- Spends one coin per input, all from ring member `index`; `rings` lists the coins of all
inputs for each member. -/
def signFull (message : Key) (rings : List (List Coin)) (index : Nat) (spent : List (Spent C))
    (payments : List Payment) (fee : UInt64) : Draw Signature := do
  let _ ← checkFull C rings index spent payments fee
  let paid ← payments.mapM (pay C)
  let s := unsigned C .full message rings [] fee paid
  let difference := (paid.map (·.mask)).foldl C.scalarSub (sumScalars C (spent.map (·.mask)))
  let matrix ← Mlsag.fullMatrix C rings s.outputs fee
  let proof ← Mlsag.sign C s.signedHash matrix (spent.map (·.secret) ++ [difference]) index
    spent.length
  pure { s with spendProofs := [proof] }

def checkSimple (rings : List (List Coin)) (indices : List Nat) (spent : List (Spent C))
    (payments : List Payment) (fee : UInt64) : Except Error Unit :=
  if spent.isEmpty then .error (.invalidArgument "no inputs")
  else if rings.length ≠ spent.length then
    .error (.shapeMismatch "mix rings" spent.length rings.length)
  else if indices.length ≠ spent.length then
    .error (.shapeMismatch "signer indices" spent.length indices.length)
  else if (rings.zip indices).any fun r => r.1.length ≤ r.2 then
    .error (.invalidArgument "signer index outside of the ring")
  else checkBalance C spent payments fee

structure Spend where
  ring : List Coin
  index : Nat
  spent : Spent C
  pseudoMask : C.Scalar

def Spend.pseudoOutput (x : Spend C) : Key :=
  C.pointKey (Commitment.commit C x.spent.amount x.pseudoMask)

def Spend.sign (message : Key) (x : Spend C) : Draw Mlsag.Signature := do
  let matrix ← Mlsag.simpleMatrix C x.ring (x.pseudoOutput C)
  Mlsag.sign C message matrix [x.spent.secret, C.scalarSub x.spent.mask x.pseudoMask] x.index 1

/-- Masks for the pseudo outputs, drawn but for the last, which makes their sum that of the
outputs' masks. -/
def drawPseudoMasks (inputs : Nat) (total : C.Scalar) : Draw (List C.Scalar) := do
  let masks ← Draw.scalars C (inputs - 1)
  pure (masks ++ [masks.foldl C.scalarSub total])

/-- Spends one coin per input; the coin of input `i` is number `indices[i]` of `rings[i]`. -/
def signSimple (message : Key) (rings : List (List Coin)) (indices : List Nat)
    (spent : List (Spent C)) (payments : List Payment) (fee : UInt64) : Draw Signature := do
  let _ ← checkSimple C rings indices spent payments fee
  let paid ← payments.mapM (pay C)
  let masks ← drawPseudoMasks C spent.length (sumScalars C (paid.map (·.mask)))
  let spends := (rings.zip (indices.zip (spent.zip masks))).map
    fun x => (⟨x.1, x.2.1, x.2.2.1, x.2.2.2⟩ : Spend C)
  let s := unsigned C .simple message rings (spends.map (Spend.pseudoOutput C)) fee paid
  let proofs ← spends.mapM (Spend.sign C s.signedHash)
  pure { s with spendProofs := proofs }

end ConfidentialTx.Confidential
