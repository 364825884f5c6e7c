import ConfidentialTx.Amount
import ConfidentialTx.Base58

/-! Base 58 in words of 64 bits. Where a word is shifted by all of its bits, is read from or written to a
number of bytes that it does not take, or a place outside a table or a buffer is asked for, there is no
outcome at all. -/
namespace ConfidentialTx.Base58

def wordLength : Nat := 8

def fullWidth : Nat := 11

/-- The word that some bytes make up, of which there has to be one at least. -/
def readWord? (block : List UInt8) : Option UInt64 :=
  if 1 ≤ block.length ∧ block.length ≤ wordLength then some (.ofNat (Bytes.toNatBE block)) else none

/-- The `len` bytes of a word, which have to be enough and one at least. -/
def writeWord? (len : Nat) (n : UInt64) : Option (List UInt8) :=
  if 1 ≤ len ∧ len ≤ wordLength ∧ n.toNat < Bytes.bound len then some (Bytes.ofNatBE len n.toNat)
  else none

/-- A word without its `k` lowest bits, which cannot be all. -/
def shiftRight? (n : UInt64) (k : Nat) : Option UInt64 :=
  if k < 64 then some (n >>> .ofNat k) else none

def excess? (len : Nat) (n : UInt64) : Option UInt64 :=
  if len < wordLength then shiftRight? n (8 * len) else some 0

def mulWords? (m n : UInt64) : Option UInt64 :=
  if m.toNat * n.toNat < UInt64.size then some (m * n) else none

def symbols? : Nat → UInt64 → Option (List Char)
  | 0, _ => some []
  | w + 1, n => do
    let c ← alphabet[(n % 58).toNat]?
    let cs ← symbols? w (n / 58)
    some (cs ++ [c])

def encodeBlock? (block : List UInt8) : Option (List Char) := do
  let n ← readWord? block
  let w ← widths[block.length]?
  if w ≤ fullWidth then symbols? w n else none

def encodeWords (bytes : List UInt8) : Option String := do
  let parts ← (blocks 7 bytes).mapM encodeBlock?
  some (String.ofList parts.flatten)

def pushDigit? (n : UInt64) (d : Nat) : Option UInt64 :=
  (mulWords? n 58).bind (Amount.add? · (.ofNat d))

def blockWord (n : UInt64) : List UInt8 → Except Error UInt64
  | [] => .ok n
  | c :: cs =>
    match digit? c with
    | none => .error (.invalidCharacter c)
    | some d =>
      match pushDigit? n d with
      | none => .error (.overflow "base58 block")
      | some n' => blockWord n' cs

def decodeBlock? (chars : List UInt8) : Option (Except Error (List UInt8)) :=
  match blockLength? chars.length with
  | none => some (.error (.badLength fullWidth chars.length))
  | some len =>
    match blockWord 0 chars with
    | .error e => some (.error e)
    | .ok n => do
      let excess ← excess? len n
      if excess ≠ 0 then some (.error (.overflow "base58 block"))
      else (writeWord? len n).map .ok

def decodeBlocks? (out : List UInt8) : List (List UInt8) → Option (Except Error (List UInt8))
  | [] => some (.ok out)
  | chars :: rest => do
    match ← decodeBlock? chars with
    | .error e => some (.error e)
    | .ok bytes => decodeBlocks? (out ++ bytes) rest

def decodeWords (text : String) : Option (Except Error (List UInt8)) :=
  decodeBlocks? [] (blocks 10 text.toUTF8.toList)

end ConfidentialTx.Base58
