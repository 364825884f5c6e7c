import ConfidentialTx.Tuple
import ConfidentialTx.Keccak
import ConfidentialTx.Error

/-! Keys and digests: 32 bytes each, written as 64 hexadecimal digits. -/
namespace ConfidentialTx

/-- A scalar or a point in the form in which it is stored. -/
abbrev Key := Tuple UInt8 32

abbrev Digest := Tuple UInt8 32

namespace Key

def zero : Key := .replicate 32 0

def ofBytes? (bytes : List UInt8) : Option Key := Tuple.ofList? 32 bytes

def text (k : Key) : String := Bytes.Hex.encode k.toList

def described (k : Key) : String := "Key(" ++ text k ++ ")"

/-- Reads 64 digits of either case. The length, counted in bytes, is looked at first. -/
def parse (text : String) : Except Error Key :=
  let bytes := text.toUTF8.toList
  if bytes.length ≠ 64 then .error (.badLength 64 bytes.length)
  else
    match Bytes.Hex.decode bytes with
    | .error c => .error (.invalidCharacter c)
    | .ok l =>
      match ofBytes? l with
      | none => .error (.badLength 64 bytes.length)
      | some k => .ok k

def concat (ks : List Key) : List UInt8 := ks.flatMap Tuple.toList

@[simp] theorem concat_nil : concat [] = [] := rfl
@[simp] theorem concat_cons (k : Key) (ks : List Key) : concat (k :: ks) = k.toList ++ concat ks := by
  simp [concat]
@[simp] theorem concat_append (ks ls : List Key) : concat (ks ++ ls) = concat ks ++ concat ls := by
  simp [concat]
@[simp] theorem length_concat (ks : List Key) : (concat ks).length = 32 * ks.length := by
  induction ks with
  | nil => rfl
  | cons k ks ih => simp [ih]; omega

end Key

namespace Digest

def described (h : Digest) : String := "Hash(" ++ Key.text h ++ ")"

end Digest

def checksum (bytes : List UInt8) : List UInt8 := (keccak256 bytes).toList.take 4

@[simp] theorem length_checksum (bytes : List UInt8) : (checksum bytes).length = 4 := by
  simp [checksum]

end ConfidentialTx
