import ConfidentialTx.Transaction.Wire

/-! Filling in what the wire leaves out of a confidential signature: the message, the rings, the
destinations of the outputs and the key images. -/
namespace ConfidentialTx.Transaction

def keyImages : List Input → Except Error (List Key)
  | [] => .ok []
  | i :: inputs =>
    match i.keyImage? with
    | none => .error (.invalidArgument "RingCT signature over a coinbase input")
    | some k => (keyImages inputs).map (k :: ·)

def checkRings : List Input → List (List Coin) → Except Error Unit
  | i :: inputs, ring :: rings =>
    if ring.length ≠ i.ringSize then
      .error (.shapeMismatch "ring of output keys" i.ringSize ring.length)
    else checkRings inputs rings
  | _, _ => .ok ()

/-- Rings by member instead of by input; `size` is the size of each of them. -/
def byMember (size : Nat) (rings : List (List Coin)) : List (List Coin) :=
  (List.range size).map fun member => rings.map fun ring => ring.getD member default

def withDestinations (coins : List Coin) (outputs : List Output) : List Coin :=
  List.zipWith (fun coin output => { coin with destination := output.key }) coins outputs

def expandSpends (s : Confidential.Signature) (images : List Key) (rings : List (List Coin)) :
    Except Error (List (List Coin) × List Mlsag.Signature) :=
  match s.kind with
  | .full =>
    match s.spendProofs with
    | [proof] => .ok (byMember (rings.headD []).length rings, [{ proof with images := images }])
    | proofs => .error (.shapeMismatch "MLSAG signatures" 1 proofs.length)
  | _ =>
    if s.spendProofs.length ≠ images.length then
      .error (.shapeMismatch "MLSAG signatures" images.length s.spendProofs.length)
    else
      .ok (rings, List.zipWith (fun proof image => { proof with images := [image] })
        s.spendProofs images)

/-- A confidential signature with everything filled in for a body and the rings of its
inputs. -/
def expandSignature (body : Body) (s : Confidential.Signature) (rings : List (List Coin)) :
    Except Error Confidential.Signature := do
  let images ← keyImages body.inputs
  let _ ← uniformMixin body.inputs
  if rings.length ≠ body.inputs.length then
    .error (.shapeMismatch "output keys" body.inputs.length rings.length)
  else do
    checkRings body.inputs rings
    if s.outputs.length ≠ body.outputs.length then
      .error (.shapeMismatch "output commitments" body.outputs.length s.outputs.length)
    else do
      let (rings, spendProofs) ← expandSpends s images rings
      pure { s with
        message := body.hash
        rings := rings
        outputs := withDestinations s.outputs body.outputs
        spendProofs := spendProofs }

/-- Fills in the rings of the inputs, listed in the order of their offsets, and all that the
transaction itself tells. Where there is nothing to fill in, only the state changes. -/
def expand (t : Transaction) (rings : List (List Coin)) : Except Error Transaction :=
  match t.signatures with
  | .ring _ => .ok { t with state := .expanded }
  | .confidential s =>
    if s.kind = .null then .ok { t with state := .expanded }
    else do
      let s ← expandSignature t.body s rings
      pure { t with signatures := .confidential s, state := .expanded }

/-- The transaction after an attempt to expand it: a failing one changes nothing. -/
def tryExpand (t : Transaction) (rings : List (List Coin)) : Transaction :=
  match t.expand rings with
  | .ok t' => t'
  | .error _ => t

end ConfidentialTx.Transaction
