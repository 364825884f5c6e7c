import ConfidentialTx.KeyGroup

/-! Randomness as a stream of bytes that is read from the front. A stream is any function from
positions to bytes, so a statement about all streams is one about all random choices. -/
namespace ConfidentialTx

/-- A stream and the number of its bytes that were taken. -/
structure Entropy where
  stream : Nat → UInt8
  drawn : Nat

namespace Entropy

def peek (e : Entropy) (n : Nat) : Tuple UInt8 n :=
  ⟨(List.range n).map fun i => e.stream (e.drawn + i), by simp⟩

def skip (e : Entropy) (n : Nat) : Entropy := { e with drawn := e.drawn + n }

end Entropy

abbrev Draw (α : Type) := StateT Entropy (Except Error) α

namespace Draw

def block (n : Nat) : Draw (Tuple UInt8 n) := fun e => .ok (e.peek n, e.skip n)

/-- An evenly distributed scalar; 64 bytes are reduced to one. -/
def scalar (C : KeyGroup) : Draw C.Scalar := do
  let b ← block 64
  pure (C.reduceWide b)

def scalars (C : KeyGroup) : Nat → Draw (List C.Scalar)
  | 0 => pure []
  | n + 1 => do
    let s ← scalar C
    let ss ← scalars C n
    pure (s :: ss)

/-- A 64-bit word, least significant byte first. -/
def word : Draw Nat := do
  let b ← block 8
  pure (Bytes.toNatLE b.toList)

/-- The largest low half of a product with `n` that is accepted: `n` with its highest bit moved
to the top of the word. -/
def zone (n : Nat) : Nat := n <<< (63 - Nat.log2 n)

/-- A number below `n`, all equally likely: the high half of a word times `n`, drawn anew while
the low half lies outside the zone. Gives up after `fuel` of the allowed attempts. -/
def belowWithin (attempts n : Nat) : (fuel : Nat) → Draw Nat
  | 0 => throw (.drawUnfinished attempts)
  | fuel + 1 => do
    let v ← word
    if v * n % UInt64.size ≤ zone n then pure (v * n / UInt64.size) else belowWithin attempts n fuel

def below (attempts n : Nat) : Draw Nat := belowWithin attempts n attempts

def keyPair (C : KeyGroup) : Draw (C.Scalar × Key) := do
  let secret ← scalar C
  pure (secret, C.publicKey secret)

end Draw
end ConfidentialTx
