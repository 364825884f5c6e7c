import ConfidentialTx.Mlsag.Basic

/-! Deciding about a layered ring signature: everything has the right shape and decodes, and the
chain of challenges through all columns ends where it began. -/
namespace ConfidentialTx.Mlsag

inductive Rejection where
  | matrix (cause : Error)
  | imageCount (found expected : Nat)
  | responses (columns rows : Nat)
  | image
  | challenge
  | member
  | response
  | openChain
  deriving DecidableEq, Inhabited

/-- What is reported about a rejection; a challenge that is not canonical is not. -/
def Rejection.lines : Rejection → List String
  | matrix cause => [s!"malformed MLSAG ring: {cause.message}"]
  | imageCount found expected => [s!"MLSAG has {found} key images, expected {expected}"]
  | responses columns rows => [s!"MLSAG responses do not match a {columns}x{rows} ring"]
  | image => ["MLSAG key image is not a valid point"]
  | challenge => []
  | member => ["MLSAG ring member is not a valid point"]
  | response => ["MLSAG response is not canonical"]
  | openChain => ["MLSAG challenge does not close"]

variable (C : KeyGroup)

def decodeColumn (keys responses : List Key) : Except Rejection (List (Layer C)) :=
  match decodeKeys C keys with
  | none => .error .member
  | some column =>
    match responses.mapM C.scalar? with
    | none => .error .response
    | some scalars => .ok (layers C column scalars)

def decodeColumns : List (List Key) → List (List Key) → Except Rejection (List (List (Layer C)))
  | keys :: matrix, responses :: rest => do
    let column ← decodeColumn C keys responses
    let columns ← decodeColumns matrix rest
    pure (column :: columns)
  | _, _ => pure []

def check (message : Key) (matrix : List (List Key)) (s : Signature) (linkable : Nat) :
    Except Rejection Unit :=
  match rowCount matrix with
  | .error cause => .error (.matrix cause)
  | .ok rows =>
    if rows < linkable ∨ s.images.length ≠ linkable then
      .error (.imageCount s.images.length linkable)
    else if s.responses.length ≠ matrix.length ∨ ∃ column ∈ s.responses, column.length ≠ rows then
      .error (.responses matrix.length rows)
    else
      match points? C s.images with
      | none => .error .image
      | some images =>
        match C.scalar? s.challenge with
        | none => .error .challenge
        | some c => do
          let columns ← decodeColumns C matrix s.responses
          if chain C message images c columns = c then pure () else .error .openChain

def verify (message : Key) (matrix : List (List Key)) (s : Signature) (linkable : Nat) : Bool :=
  (check C message matrix s linkable).isOk

end ConfidentialTx.Mlsag
