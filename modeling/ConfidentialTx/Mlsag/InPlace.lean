import ConfidentialTx.Mlsag.Verification

/-! Deciding about a layered ring signature with one buffer for the keys that are digested. Every column
writes its keys over those of the column before, each to a place that follows from the number of its
layer. Layers, key images and places are looked up by number, and there is no outcome if one of them
is not there. -/
namespace ConfidentialTx.Mlsag

abbrev Buffer := Array Key

namespace Buffer

def write (b : Buffer) (place : Nat) (k : Key) : Option Buffer :=
  if h : place < b.size then some (b.set place k h) else none

/-- One place for the message, three for each linkable layer and two for each other one. -/
def size (rows linkable : Nat) : Nat := 1 + 3 * linkable + 2 * (rows - linkable)

def start (message : Key) (rows linkable : Nat) : Option Buffer :=
  write (Array.replicate (size rows linkable) Key.zero) 0 message

end Buffer

variable (C : KeyGroup)

def writeLinkable (images : List C.Point) (c : C.Scalar) (keys : List Key) (points : List C.Point)
    (responses : List C.Scalar) (b : Buffer) (j : Nat) : Option Buffer := do
  let P ← points[j]?
  let s ← responses[j]?
  let k ← keys[j]?
  let I ← images[j]?
  let b ← b.write (3 * j + 1) k
  let b ← b.write (3 * j + 2) (C.pointKey (C.smulAddBase c P s))
  b.write (3 * j + 3) (C.pointKey (C.smulAdd s (C.hashToPoint k) c I))

def writePlain (linkable : Nat) (c : C.Scalar) (keys : List Key) (points : List C.Point)
    (responses : List C.Scalar) (b : Buffer) (j : Nat) : Option Buffer := do
  let P ← points[j]?
  let s ← responses[j]?
  let k ← keys[j]?
  let place := 3 * linkable + 2 * (j - linkable)
  let b ← b.write (place + 1) k
  b.write (place + 2) (C.pointKey (C.smulAddBase c P s))

/-- Writes all layers of a column, the linkable ones first. -/
def writeColumn (rows linkable : Nat) (images : List C.Point) (c : C.Scalar) (keys : List Key)
    (points : List C.Point) (responses : List C.Scalar) (b : Buffer) : Option Buffer := do
  let b ← (List.range linkable).foldlM (writeLinkable C images c keys points responses) b
  (List.range' linkable (rows - linkable)).foldlM (writePlain C linkable c keys points responses) b

/-- Decodes and digests one column after the other, and gives the challenge after the last one. -/
def chainInPlace (rows linkable : Nat) (images : List C.Point) :
    Buffer → C.Scalar → List (List Key) → List (List Key) → Option (Except Rejection C.Scalar)
  | b, c, keys :: matrix, responses :: rest =>
    match points? C keys with
    | none => some (.error .member)
    | some points =>
      match responses.mapM C.scalar? with
      | none => some (.error .response)
      | some scalars => do
        let b ← writeColumn C rows linkable images c keys points scalars b
        chainInPlace rows linkable images b (C.hashKeys b.toList) matrix rest
  | _, c, _, _ => some (.ok c)

def checkInPlace (message : Key) (matrix : List (List Key)) (s : Signature) (linkable : Nat) :
    Option (Except Rejection Unit) :=
  match rowCount matrix with
  | .error cause => some (.error (.matrix cause))
  | .ok rows =>
    if rows < linkable ∨ s.images.length ≠ linkable then
      some (.error (.imageCount s.images.length linkable))
    else if s.responses.length ≠ matrix.length ∨ ∃ column ∈ s.responses, column.length ≠ rows then
      some (.error (.responses matrix.length rows))
    else
      match points? C s.images with
      | none => some (.error .image)
      | some images =>
        match C.scalar? s.challenge with
        | none => some (.error .challenge)
        | some c => do
          let b ← Buffer.start message rows linkable
          let last ← chainInPlace C rows linkable images b c matrix s.responses
          pure (last >>= fun last => if last = c then pure () else .error .openChain)

def verifyInPlace (message : Key) (matrix : List (List Key)) (s : Signature) (linkable : Nat) :
    Option Bool :=
  (checkInPlace C message matrix s linkable).map Except.isOk

end ConfidentialTx.Mlsag
