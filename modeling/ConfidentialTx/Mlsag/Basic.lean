import ConfidentialTx.KeyGroup

/-! Ring signatures in layers. The ring is a matrix of keys: a column for each member, a row for
each layer. The signer knows the secrets of one whole column. The first layers are linkable and
have a key image; the others only show that a logarithm is known. -/
namespace ConfidentialTx.Mlsag

structure Signature where
  /-- A response for every key of the matrix, column by column. -/
  responses : List (List Key)
  /-- The challenge that enters the first column. -/
  challenge : Key
  /-- Key images of the linkable layers. -/
  images : List Key
  deriving DecidableEq, Inhabited

def rowCount (matrix : List (List Key)) : Except Error Nat :=
  match matrix with
  | [] => .error (.invalidArgument "empty MLSAG ring")
  | column :: _ =>
    if column = [] then .error (.invalidArgument "empty MLSAG ring")
    else
      match matrix.find? fun c => c.length ≠ column.length with
      | some c => .error (.shapeMismatch "MLSAG ring column" column.length c.length)
      | none => .ok column.length

variable (C : KeyGroup)

structure Layer where
  key : Key
  point : C.Point
  response : C.Scalar

/-- `s * G + c * P`. -/
def Layer.left (c : C.Scalar) (x : Layer C) : C.Point := C.smulAddBase c x.point x.response

/-- `s * Hp(P) + c * I`. -/
def Layer.right (c : C.Scalar) (image : C.Point) (x : Layer C) : C.Point :=
  C.smulAdd x.response (C.hashToPoint x.key) c image

/-- The keys that a column adds to the digest; images belong to its first layers. -/
def columnKeys (c : C.Scalar) : List C.Point → List (Layer C) → List Key
  | _, [] => []
  | [], x :: xs => x.key :: C.pointKey (x.left C c) :: columnKeys c [] xs
  | I :: Is, x :: xs =>
    x.key :: C.pointKey (x.left C c) :: C.pointKey (x.right C c I) :: columnKeys c Is xs

def nextChallenge (message : Key) (images : List C.Point) (c : C.Scalar)
    (column : List (Layer C)) : C.Scalar :=
  C.hashKeys (message :: columnKeys C c images column)

def chain (message : Key) (images : List C.Point) (c : C.Scalar)
    (columns : List (List (Layer C))) : C.Scalar :=
  columns.foldl (nextChallenge C message images) c

abbrev Column := List (Key × C.Point)

def points? (keys : List Key) : Option (List C.Point) := keys.mapM C.point?

def decodeKeys (keys : List Key) : Option (Column C) :=
  (points? C keys).map fun points => keys.zip points

def layers (column : Column C) (responses : List C.Scalar) : List (Layer C) :=
  List.zipWith (fun k s => ⟨k.1, k.2, s⟩) column responses

end ConfidentialTx.Mlsag
