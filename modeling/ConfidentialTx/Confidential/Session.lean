import ConfidentialTx.Confidential.Scan

/-! Sequences of calls that read from one slice. A call that fails does not end the sequence: the next one
goes on from wherever the cursor was left. -/
namespace ConfidentialTx.Session

open Wire

inductive Call where
  | byte (field : String)
  | bytes (n : Nat) (field : String)
  | key (field : String)
  | varint (field : String)
  | count (field : String) (limit : UInt64) (itemLength : Nat)
  | ringSignature (ringSize : Nat)
  | confidential (inputs outputs mixin : Nat)

namespace Call

def Value : Call → Type
  | byte _ => UInt8
  | bytes _ _ => List UInt8
  | key _ => Key
  | varint _ => UInt64
  | count _ _ _ => Nat
  | ringSignature _ => RingSignature
  | confidential _ _ _ => Confidential.Signature

def scan : (x : Call) → Scan x.Value
  | byte field => Scan.byte field
  | bytes n field => Scan.bytes n field
  | key field => Scan.key field
  | varint field => Scan.varint field
  | count field limit itemLength => Scan.count field limit itemLength
  | ringSignature ringSize => RingSignature.scan ringSize
  | confidential inputs outputs mixin => Confidential.Signature.scan inputs outputs mixin

def write : (x : Call) → x.Value → List UInt8
  | byte _, (b : UInt8) => [b]
  | bytes _ _, (l : List UInt8) => l
  | key _, (k : Key) => k.toList
  | varint _, (v : UInt64) => Varint.encode v.toNat
  | count _ _ _, (n : Nat) => Varint.encode n
  | ringSignature _, (s : RingSignature) => s.toBytes
  | confidential _ _ _, (s : Confidential.Signature) => s.toBytes

end Call

/-- A call, what came of it, and where the cursor was before and after. -/
structure Event where
  call : Call
  before : Cursor
  outcome : Except Error call.Value
  after : Cursor

def run : List Call → Cursor → Option (List Event)
  | [], _ => some []
  | x :: xs, c => do
    let (outcome, c') ← x.scan c
    let events ← run xs c'
    some (⟨x, c, outcome, c'⟩ :: events)

end ConfidentialTx.Session
