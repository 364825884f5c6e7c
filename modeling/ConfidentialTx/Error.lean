import ConfidentialTx.Bytes.Hex

/-! Causes of failure of decoding, building and expanding. A forged signature is no failure:
verification answers with a verdict. -/
namespace ConfidentialTx

/-- Why an encoding was refused or a call could not be answered. -/
inductive Error where
  | truncated (field : String)
  | badLength (expected actual : Nat)
  | checksumMismatch
  | unknownTag (field : String) (tag : UInt8)
  | invalidCharacter (byte : UInt8)
  | overflow (field : String)
  | nonMinimalVarint
  | invalidScalar (field : String)
  | invalidPoint (field : String)
  | unimplemented (what : String)
  | trailingBytes (count : Nat)
  | limitExceeded (field : String) (value limit : UInt64)
  | inconsistentRingSize (expected actual : Nat)
  | notExpanded
  | shapeMismatch (field : String) (expected actual : Nat)
  | commitmentMismatch
  | invalidArgument (what : String)
  /-- No word of the random stream was fit for an even choice within the attempts allowed. -/
  | drawUnfinished (attempts : Nat)
  deriving DecidableEq, Inhabited

namespace Error

/-- A byte as a character in single quotes; quotes, backslashes and what has no glyph are
escaped. -/
def quoted (b : UInt8) : String :=
  let body :=
    if b = 0 then "\\0"
    else if b = 9 then "\\t"
    else if b = 10 then "\\n"
    else if b = 13 then "\\r"
    else if b = 39 then "\\'"
    else if b = 92 then "\\\\"
    else if b < 32 ∨ (127 ≤ b ∧ b < 160) ∨ b = 173 then
      "\\u\x7b" ++ String.ofList (Nat.toDigits 16 b.toNat) ++ "\x7d"
    else String.singleton (Char.ofNat b.toNat)
  "'" ++ body ++ "'"

def message : Error → String
  | truncated field => s!"input ended while reading {field}"
  | badLength expected actual => s!"bad length: expected {expected} bytes, got {actual}"
  | checksumMismatch => "checksum does not validate"
  | unknownTag field tag => s!"unknown tag 0x{Bytes.Hex.encode [tag]} for {field}"
  | invalidCharacter byte => s!"invalid base58 character {quoted byte}"
  | overflow field => s!"value of {field} does not fit its encoding"
  | nonMinimalVarint => "varint is not minimally encoded"
  | invalidScalar field => s!"non-canonical scalar in {field}"
  | invalidPoint field => s!"{field} is not a valid curve point"
  | unimplemented what => s!"unimplemented: {what}"
  | trailingBytes count => s!"{count} unexpected trailing bytes"
  | limitExceeded field value limit => s!"{field} = {value} exceeds the limit of {limit}"
  | inconsistentRingSize expected actual =>
    s!"inputs have different ring sizes ({expected} and {actual})"
  | notExpanded => "RingCT fields have not been expanded"
  | shapeMismatch field expected actual =>
    s!"{field} has wrong shape: expected {expected}, got {actual}"
  | commitmentMismatch => "decoded amount does not open the output commitment"
  | invalidArgument what => s!"invalid argument: {what}"
  | drawUnfinished attempts => s!"no choice was drawn in {attempts} attempts"

end Error
end ConfidentialTx
