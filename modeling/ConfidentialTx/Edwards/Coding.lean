import ConfidentialTx.Edwards.Point
import ConfidentialTx.Bytes.Number
import ConfidentialTx.Key

/-! Points as keys: the 255 low bits are `y`, the top bit tells whether `x` is odd. Reading
takes `y` modulo `p` and so accepts a few keys that writing never makes. -/
namespace ConfidentialTx.Edwards

open Coordinate

def signBit : Nat := 0x8000000000000000000000000000000000000000000000000000000000000000

namespace Point

def toKey (P : Point) : Key :=
  ⟨Bytes.ofNatLE 32 (P.y + if isOdd P.x then signBit else 0), by simp⟩

/-- The even `x` that belongs to `y`, if there is one. -/
def evenX? (y : Nat) : Option Nat :=
  let s := square y
  let ratio := mul (Coordinate.sub s 1) (inv (Coordinate.add (mul d s) 1))
  (sqrt? ratio).map fun r => if isOdd r then Coordinate.neg r else r

def ofKey? (k : Key) : Option Point :=
  let n := Bytes.toNatLE k.toList
  let y := n % signBit % p
  (evenX? y).map fun x => ⟨if n < signBit then x else Coordinate.neg x, y⟩

end Point
end ConfidentialTx.Edwards
