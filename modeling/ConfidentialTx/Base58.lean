import ConfidentialTx.Bytes.Number
import ConfidentialTx.Error

/-! Base 58 by blocks: eight bytes become eleven characters, and a shorter last block a number
of characters of its own, so that the length of the text depends on the number of bytes only. -/
namespace ConfidentialTx.Base58

def alphabet : List Char := "123456789ABCDEFGHJKLMNPQRSTUVWXYZabcdefghijkmnopqrstuvwxyz".toList

def symbol (d : Nat) : Char := alphabet.getD d '1'

def digit? (c : UInt8) : Option Nat := alphabet.findIdx? fun a => a.toNat = c.toNat

/-- The number of characters for a block of so many bytes. -/
def widths : List Nat := [0, 2, 3, 5, 6, 7, 9, 10, 11]

def width (n : Nat) : Nat := widths.getD n 0

def blockLength? (chars : Nat) : Option Nat := widths.findIdx? fun w => w = chars

/-- Cuts a list into pieces of `n + 1` values; the last piece may be shorter. -/
def blocks {α : Type} (n : Nat) : List α → List (List α)
  | [] => []
  | a :: l => (a :: l.take n) :: blocks n (l.drop n)
termination_by l => l.length
decreasing_by simp only [List.length_drop, List.length_cons]; omega

/-- The `w` lowest digits of a number, most significant first. -/
def digits : Nat → Nat → List Nat
  | 0, _ => []
  | w + 1, n => digits w (n / 58) ++ [n % 58]

@[simp] theorem length_digits (w n : Nat) : (digits w n).length = w := by
  induction w generalizing n with
  | zero => rfl
  | succ w ih => simp [digits, ih]

def encodeBlock (block : List UInt8) : List Char :=
  (digits (width block.length) (Bytes.toNatBE block)).map symbol

def encode (bytes : List UInt8) : String :=
  String.ofList ((blocks 7 bytes).flatMap encodeBlock)

/-- The number that characters stand for; it has to stay below `2 ^ 64` all along. -/
def blockValue (n : Nat) : List UInt8 → Except Error Nat
  | [] => .ok n
  | c :: cs =>
    match digit? c with
    | none => .error (.invalidCharacter c)
    | some d => if n * 58 + d < UInt64.size then blockValue (n * 58 + d) cs
      else .error (.overflow "base58 block")

def decodeBlock (chars : List UInt8) : Except Error (List UInt8) :=
  match blockLength? chars.length with
  | none => .error (.badLength 11 chars.length)
  | some len => do
    let n ← blockValue 0 chars
    if n < Bytes.bound len then pure (Bytes.ofNatBE len n) else .error (.overflow "base58 block")

/-- Reads the bytes of a text; a character that takes several bytes is several bad characters. -/
def decode (text : String) : Except Error (List UInt8) := do
  let parts ← (blocks 10 text.toUTF8.toList).mapM decodeBlock
  pure parts.flatten

end ConfidentialTx.Base58
