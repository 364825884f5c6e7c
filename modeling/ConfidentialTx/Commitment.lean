import ConfidentialTx.KeyGroup

/-! Commitments to amounts: `mask * G + amount * H`. Sums of commitments commit to sums. -/
namespace ConfidentialTx.Commitment

variable (C : KeyGroup)

/-- `mask * G + amount * H`. -/
def commit (amount : UInt64) (mask : C.Scalar) : C.Point :=
  C.smulAddBase (C.scalarOfAmount amount) C.amountBase mask

def ofFee (fee : UInt64) : C.Point := C.smul (C.scalarOfAmount fee) C.amountBase

/-- `P`, `2 * P`, `4 * P` and so on. -/
def doublings : (n : Nat) → C.Point → Tuple C.Point n
  | 0, _ => .nil
  | n + 1, P => .cons P (doublings n (C.add P P))

/-- `2 ^ i * H` for the 64 bits of an amount. -/
def amountPowers : Tuple C.Point 64 := doublings C 64 C.amountBase

def total (start : C.Point) (points : List C.Point) : C.Point := points.foldl C.add start

end ConfidentialTx.Commitment
