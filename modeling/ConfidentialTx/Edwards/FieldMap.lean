import ConfidentialTx.Edwards.Point
import ConfidentialTx.Bytes.Number
import ConfidentialTx.Key

/-! A map from digests to points. It runs through the Montgomery form `v² = u³ + A u² + u` of
the curve, on which one of two candidates always has a square root. -/
namespace ConfidentialTx.Edwards

open Coordinate

namespace FieldMap

def montgomeryA : Nat := 486662

def scale : Nat := mul montgomeryA (montgomeryA + 2)

/-- A square root of `-2 A (A + 2)`. -/
def rootNeg : Nat := 0x018e04102529e4e8df563ac8be04e61c2e6bfb5746d58c72dd58968acde3bdff

/-- A square root of `2 A (A + 2)`. -/
def rootPos : Nat := 0x32f9e1f5fba5d3096e2bae483fe9a041ae21fcb9fba908202d219b7c9f83650d

/-- A square root of `-√-1 A (A + 2)`. -/
def rootNegTwist : Nat := 0x674a110d14c208efb89546403f0da2ed4024ff4ea5964229581b7d8717302c66

/-- A square root of `√-1 A (A + 2)`. -/
def rootPosTwist : Nat := 0x65bc0cfcef982406d93f0b778108bcd111b903f75ec0b5b67ac2e6fc494c6e67

theorem square_rootNeg : square rootNeg = neg (mul 2 scale) := by decide
theorem square_rootPos : square rootPos = mul 2 scale := by decide
theorem square_rootNegTwist : square rootNegTwist = neg (mul sqrtMinusOne scale) := by decide
theorem square_rootPosTwist : square rootPosTwist = mul sqrtMinusOne scale := by decide

/-- The ratio `x / y` of Montgomery coordinates up to sign, the Montgomery `x` relative to
`w`, and the parity that the ratio is to have. -/
structure Candidate where
  ratio : Nat
  x : Nat
  odd : Bool

/-- The candidate for the field element `u`, where `v = 2 u²` and `w = v + 1`. -/
def candidate (u v w : Nat) : Candidate :=
  let x := add (square w) (mul (neg (square montgomeryA)) v)
  let r := halfRoot (mul w (inv x))
  let check := mul (square r) x
  if w = check then ⟨mul (mul r rootPos) u, mul (neg montgomeryA) v, false⟩
  else if add w check = 0 then ⟨mul (mul r rootNeg) u, mul (neg montgomeryA) v, false⟩
  else if w = mul check sqrtMinusOne then ⟨mul r rootPosTwist, neg montgomeryA, true⟩
  else ⟨mul r rootNegTwist, neg montgomeryA, true⟩

end FieldMap

def Point.ofElement (u : Nat) : Point :=
  let v := mul 2 (square u)
  let w := Coordinate.add v 1
  let c := FieldMap.candidate u v w
  let r := if isOdd c.ratio = c.odd then c.ratio else Coordinate.neg c.ratio
  let z := Coordinate.add c.x w
  let i := inv z
  ⟨mul (mul r z) i, mul (Coordinate.sub c.x w) i⟩

/-- The point of a digest; all 256 bits count, least significant byte first. -/
def Point.ofDigest (h : Digest) : Point := ofElement (Bytes.toNatLE h.toList % p)

end ConfidentialTx.Edwards
