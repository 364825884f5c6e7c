/-! Bytes as text, two hexadecimal digits each. Writing uses lower-case digits; reading takes
both cases and stops at the first character that is no digit. -/
namespace ConfidentialTx.Bytes.Hex

def digit (n : Nat) : Char := Nat.digitChar n

def digits (b : UInt8) : List Char := [digit (b.toNat / 16), digit (b.toNat % 16)]

def encode (bytes : List UInt8) : String := String.ofList (bytes.flatMap digits)

def value? (c : UInt8) : Option Nat :=
  if 48 ≤ c ∧ c ≤ 57 then some (c.toNat - 48)
  else if 97 ≤ c ∧ c ≤ 102 then some (c.toNat - 87)
  else if 65 ≤ c ∧ c ≤ 70 then some (c.toNat - 55)
  else none

/-- Reads pairs of digits; fails with the first byte that is no digit. A last digit without
a partner is dropped. -/
def decode : List UInt8 → Except UInt8 (List UInt8)
  | c :: c' :: rest =>
    match value? c with
    | none => .error c
    | some h =>
      match value? c' with
      | none => .error c'
      | some l => (decode rest).map (UInt8.ofNat (16 * h + l) :: ·)
  | _ => .ok []

end ConfidentialTx.Bytes.Hex
