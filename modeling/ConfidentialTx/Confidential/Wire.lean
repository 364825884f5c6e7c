import ConfidentialTx.Confidential.Basic
import ConfidentialTx.Wire.Reader

/-! Bytes and digests of confidential signatures. The base is always kept; the range proofs and
spend proofs may be dropped once their digest is known. -/
namespace ConfidentialTx.Confidential

open Wire

namespace Signature

/-- The part that is never dropped. -/
def baseBytes (s : Signature) : List UInt8 :=
  s.kind.tag ::
    match s.kind with
    | .null => []
    | kind =>
      Varint.encode s.fee.toNat ++ (if kind = .simple then Key.concat s.pseudoOutputs else []) ++
        s.maskedAmounts.flatMap (fun m => m.mask.toList ++ m.amount.toList) ++
        s.outputs.flatMap fun coin => coin.commitment.toList

def rangeBytes (s : Signature) : List UInt8 := s.rangeProofs.flatMap RangeProof.toBytes

def spendBytes (m : Mlsag.Signature) : List UInt8 :=
  m.responses.flatMap Key.concat ++ m.challenge.toList

/-- The part that may be dropped. -/
def prunableBytes (s : Signature) : List UInt8 :=
  match s.kind with
  | .null => []
  | _ => s.rangeBytes ++ s.spendProofs.flatMap spendBytes

def toBytes (s : Signature) : List UInt8 := s.baseBytes ++ s.prunableBytes

def baseHash (s : Signature) : Digest := keccak256 s.baseBytes

/-- All zeros where there are no hidden amounts. -/
def prunableHash (s : Signature) : Digest :=
  match s.kind with
  | .null => .replicate 32 0
  | _ => keccak256 s.prunableBytes

/-- What the spend proofs sign. -/
def signedHash (s : Signature) : Digest :=
  keccak256 (s.message.toList ++ s.baseHash.toList ++ (keccak256 s.rangeBytes).toList)

end Signature

/-! ## Reading -/

def kindParser : Parser Kind := do
  let tag ← Parser.byte "RingCT type"
  Parser.ofExcept (Kind.ofTag tag)

def maskedAmountParser : Parser MaskedAmount := do
  let mask ← Parser.key "ecdh mask"
  let amount ← Parser.key "ecdh amount"
  pure ⟨mask, amount, .zero⟩

/-- A coin of which only the commitment is written. -/
def outputParser : Parser Coin := do
  let commitment ← Parser.key "output commitment"
  pure ⟨.zero, commitment⟩

def rangeProofParser : Parser RangeProof := do
  let first ← (Parser.key "borromean s0").tuple 64
  let second ← (Parser.key "borromean s1").tuple 64
  let challenge ← Parser.key "borromean ee"
  let bits ← (Parser.key "bit commitment").tuple 64
  pure ⟨⟨first, second, challenge⟩, bits⟩

def spendProofParser (columns rows : Nat) : Parser Mlsag.Signature := do
  let responses ← ((Parser.key "MLSAG response").times rows).times columns
  let challenge ← Parser.key "MLSAG challenge"
  pure ⟨responses, challenge, []⟩

def pseudoCount (kind : Kind) (inputs : Nat) : Nat :=
  match kind with
  | .simple => inputs
  | _ => 0

/-- The number of spend proofs and of their layers for so many inputs. -/
def spendShape (kind : Kind) (inputs : Nat) : Nat × Nat :=
  match kind with
  | .simple => (inputs, 2)
  | _ => (1, inputs + 1)

def fieldsParser (kind : Kind) (inputs outputs ringSize : Nat) : Parser Signature := do
  let fee ← Parser.varint "transaction fee"
  let pseudoOutputs ← (Parser.key "pseudo output").times (pseudoCount kind inputs)
  let maskedAmounts ← maskedAmountParser.times outputs
  let coins ← outputParser.times outputs
  let rangeProofs ← rangeProofParser.times outputs
  let (proofs, rows) := spendShape kind inputs
  let spendProofs ← (spendProofParser ringSize rows).times proofs
  pure ⟨kind, .zero, [], pseudoOutputs, maskedAmounts, coins, fee, rangeProofs, spendProofs⟩

def spendKeys (kind : Kind) (inputs ringSize : Nat) : Nat :=
  match kind with
  | .simple => saturate (inputs * saturate (saturate (ringSize * 2) + 1))
  | _ => saturate (saturate (ringSize * saturate (inputs + 1)) + 1)

/-- The least number of bytes after the kind: all keys, and one byte for the fee. -/
def fieldsLength (kind : Kind) (inputs outputs ringSize : Nat) : Nat :=
  let keys := saturate (saturate (pseudoCount kind inputs + saturate (outputs * 196)) +
    spendKeys kind inputs ringSize)
  saturate (saturate (keys * 32) + 1)

/-- Reads the signature of a transaction with given numbers of inputs, outputs and other ring
members, if enough bytes are left for it. -/
def Signature.parse (inputs outputs mixin : Nat) : Parser Signature := do
  let kind ← kindParser
  if kind = .null then pure .null
  else do
    let ringSize := saturate (mixin + 1)
    let left ← Parser.remaining
    if left < fieldsLength kind inputs outputs ringSize then
      Parser.fail (.truncated "RingCT signature")
    else fieldsParser kind inputs outputs ringSize

/-- What is reported while a signature is read: its kind, as soon as that is known. -/
def Signature.parseTrace (r : Reader) : List String :=
  match kindParser r with
  | (.ok kind, _) => [s!"parsing {kind.text} RingCT signature"]
  | _ => []

end ConfidentialTx.Confidential
