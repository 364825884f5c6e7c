import ConfidentialTx.Transaction.Expansion

/-! Expansion of a transaction that is held in place. Its fields are assigned one after the other,
with checks before and between the assignments; what was assigned before a check fails is not taken
back. -/
namespace ConfidentialTx.Transaction

/-- A step on a transaction that may fail, and in either case says what the transaction is then. -/
abbrev Update := EStateM Error Transaction

namespace Update

def after {α : Type} (u : Update α) (t : Transaction) : Transaction :=
  match u t with
  | .ok _ t' => t'
  | .error _ t' => t'

def check {α : Type} (x : Except Error α) : Update α := fun t =>
  match x with
  | .ok a => .ok a t
  | .error e => .error e t

def require (p : Prop) [Decidable p] (e : Error) : Update Unit := if p then pure () else throw e

def assign (f : Confidential.Signature → Confidential.Signature) : Update Unit :=
  modify fun t =>
    match t.signatures with
    | .ring _ => t
    | .confidential s => { t with signatures := .confidential (f s) }

def markExpanded : Update Unit := modify fun t => { t with state := .expanded }

end Update

/-- Assigns to the values of a list in turn, as long as there are values to assign. -/
def assignEach {α β : Type} (f : α → β → α) : List α → List β → List α
  | a :: as, b :: bs => f a b :: assignEach f as bs
  | as, _ => as

def fillSpends (s : Confidential.Signature) (images : List Key) (rings : List (List Coin)) :
    Update Unit :=
  match s.kind with
  | .full => do
    Update.require (s.spendProofs.length = 1)
      (.shapeMismatch "MLSAG signatures" 1 s.spendProofs.length)
    Update.assign fun s => { s with rings := byMember (rings.headD []).length rings }
    Update.assign fun s => { s with
      spendProofs := s.spendProofs.modifyHead fun proof => { proof with images := images } }
  | _ => do
    Update.require (s.spendProofs.length = images.length)
      (.shapeMismatch "MLSAG signatures" images.length s.spendProofs.length)
    Update.assign fun s => { s with rings := rings }
    Update.assign fun s => { s with
      spendProofs := assignEach (fun proof image => { proof with images := [image] })
        s.spendProofs images }

/-- Fills in what `expand` fills in, where it stands. -/
def expandInPlace (rings : List (List Coin)) : Update Unit := do
  let t ← get
  match t.signatures with
  | .ring _ => Update.markExpanded
  | .confidential s =>
    if s.kind = .null then Update.markExpanded
    else do
      let images ← Update.check (keyImages t.body.inputs)
      let _ ← Update.check (uniformMixin t.body.inputs)
      Update.require (rings.length = t.body.inputs.length)
        (.shapeMismatch "output keys" t.body.inputs.length rings.length)
      Update.check (checkRings t.body.inputs rings)
      Update.require (s.outputs.length = t.body.outputs.length)
        (.shapeMismatch "output commitments" t.body.outputs.length s.outputs.length)
      fillSpends s images rings
      Update.assign fun s => { s with
        outputs := assignEach (fun coin output => { coin with destination := output.key })
          s.outputs t.body.outputs }
      Update.assign fun s => { s with message := t.body.hash }
      Update.markExpanded

end ConfidentialTx.Transaction
