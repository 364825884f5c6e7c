import ConfidentialTx.Entropy

/-! A reproducible stream: given bytes first, then the words of a counter that is mixed. -/
namespace ConfidentialTx.Entropy

def mix (z : UInt64) : UInt64 :=
  let z := (z ^^^ (z >>> 30)) * 0xbf58476d1ce4e5b9
  let z := (z ^^^ (z >>> 27)) * 0x94d049bb133111eb
  z ^^^ (z >>> 31)

/-- Word number `k` after a seed; the counter goes up by a fixed odd step. -/
def seededWord (seed : UInt64) (k : Nat) : UInt64 :=
  mix (seed + UInt64.ofNat (k + 1) * 0x9e3779b97f4a7c15)

/-- Byte number `k` after a seed; words are cut up from the least significant byte. -/
def seededByte (seed : UInt64) (k : Nat) : UInt8 :=
  (seededWord seed (k / 8) >>> UInt64.ofNat (8 * (k % 8))).toUInt8

/-- The bytes of a tape and after them those of a seed; nothing is taken yet. -/
def ofTape (tape : List UInt8) (seed : UInt64) : Entropy :=
  let bytes := tape.toArray
  ⟨fun k => if h : k < bytes.size then bytes[k] else seededByte seed (k - bytes.size), 0⟩

end ConfidentialTx.Entropy
