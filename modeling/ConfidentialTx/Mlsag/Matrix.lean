import ConfidentialTx.Coin
import ConfidentialTx.Commitment

/-! The matrices that the spends of confidential coins are signed over. A last layer holds the
difference between what goes in and what comes out; it has a known logarithm if the amounts
balance. -/
namespace ConfidentialTx.Mlsag

variable (C : KeyGroup)

def decodePoint (field : String) (k : Key) : Except Error C.Point :=
  match C.point? k with
  | some P => .ok P
  | none => .error (.invalidPoint field)

def addCommitments (field : String) (start : C.Point) (coins : List Coin) :
    Except Error C.Point := do
  let points ← coins.mapM fun coin => decodePoint C field coin.commitment
  pure (Commitment.total C start points)

def outputTotal (outputs : List Coin) (fee : UInt64) : Except Error C.Point :=
  addCommitments C "output commitment" (Commitment.ofFee C fee) outputs

/-- The keys of one ring member of all inputs together. -/
def fullColumn (inputs : Nat) (total : C.Point) (coins : List Coin) : Except Error (List Key) :=
  if coins.length ≠ inputs then .error (.shapeMismatch "mix ring column" inputs coins.length)
  else do
    let sum ← addCommitments C "ring commitment" C.zero coins
    pure (coins.map (·.destination) ++ [C.pointKey (C.sub sum total)])

/-- The matrix for all inputs together: `rings` lists the coins of all inputs for each ring
member. -/
def fullMatrix (rings : List (List Coin)) (outputs : List Coin) (fee : UInt64) :
    Except Error (List (List Key)) := do
  let total ← outputTotal C outputs fee
  rings.mapM (fullColumn C (rings.headD []).length total)

/-- The matrix for one input whose amount is committed to anew. -/
def simpleMatrix (ring : List Coin) (pseudoOutput : Key) : Except Error (List (List Key)) := do
  let pseudo ← decodePoint C "pseudo output" pseudoOutput
  ring.mapM fun coin => do
    let P ← decodePoint C "ring commitment" coin.commitment
    pure [coin.destination, C.pointKey (C.sub P pseudo)]

end ConfidentialTx.Mlsag
