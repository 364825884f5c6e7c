import ConfidentialTx.Mlsag.Basic
import ConfidentialTx.Entropy

/-! Making a layered ring signature. The chain of challenges starts after the signer's column
with the nonces in place of responses, runs around the ring with responses that are drawn,
and is closed by the signer's secrets. -/
namespace ConfidentialTx.Mlsag

variable (C : KeyGroup)

/-- The keys that the signer's column adds to the digest: `a * G`, and `a * Hp(P)` in the first
`linkable` layers. -/
def nonceKeys : (linkable : Nat) → List Key → List C.Scalar → List Key
  | n + 1, k :: ks, a :: as =>
    k :: C.pointKey (C.smulBase a) :: C.pointKey (C.smul a (C.hashToPoint k)) :: nonceKeys n ks as
  | 0, k :: ks, a :: as => k :: C.pointKey (C.smulBase a) :: nonceKeys 0 ks as
  | _, _, _ => []

def keyImages (linkable : Nat) (keys : List Key) (secrets : List C.Scalar) : List C.Point :=
  List.zipWith (fun k x => C.smul x (C.hashToPoint k)) (keys.take linkable) secrets

/-- Draws responses for some columns, and gives the challenge after them. -/
def simulate (message : Key) (images : List C.Point) :
    C.Scalar → List (Column C) → Draw (List (List Key) × C.Scalar)
  | c, [] => pure ([], c)
  | c, column :: columns => do
    let responses ← Draw.scalars C column.length
    let c := nextChallenge C message images c (layers C column responses)
    let (rest, last) ← simulate message images c columns
    pure (responses.map C.scalarKey :: rest, last)

/-- Signs with the secrets of one column between those before and after it. -/
def signBetween (message : Key) (linkable : Nat) (secrets : List C.Scalar)
    (before : List (Column C)) (own : Column C) (after : List (Column C)) : Draw Signature := do
  let keys := own.map (·.1)
  let nonces ← Draw.scalars C own.length
  let images := keyImages C linkable keys secrets
  let start := C.hashKeys (message :: nonceKeys C linkable keys nonces)
  let (responsesAfter, first) ← simulate C message images start after
  let (responsesBefore, last) ← simulate C message images first before
  let ownResponses := List.zipWith (fun a x => C.scalarKey (C.scalarMulSub last x a)) nonces secrets
  pure ⟨responsesBefore ++ ownResponses :: responsesAfter, C.scalarKey first,
    images.map C.pointKey⟩

/-- Signs with the secrets of column number `index`; key images are made for the first
`linkable` layers. -/
def sign (message : Key) (matrix : List (List Key)) (secrets : List C.Scalar)
    (index linkable : Nat) : Draw Signature := do
  let rows ← rowCount matrix
  if secrets.length ≠ rows then throw (.shapeMismatch "MLSAG secrets" rows secrets.length)
  else if matrix.length ≤ index then throw (.invalidArgument "signer index outside of the ring")
  else if rows < linkable then throw (.invalidArgument "more linkable layers than layers")
  else
    match matrix.mapM (decodeKeys C) with
    | none => throw (.invalidPoint "MLSAG ring member")
    | some columns =>
      signBetween C message linkable secrets (columns.take index) (columns.getD index [])
        (columns.drop (index + 1))

end ConfidentialTx.Mlsag
