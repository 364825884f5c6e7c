import ConfidentialTx.Base58
import ConfidentialTx.Key

/-! Public addresses: a network tag and two public keys, guarded by a checksum and shown in
base 58. -/
namespace ConfidentialTx

structure Address where
  network : UInt8
  spendKey : Key
  viewKey : Key
  deriving DecidableEq, Inhabited

namespace Address

/-- The number of raw bytes: the tag, two keys and the checksum. -/
def rawLength : Nat := 1 + 2 * 32 + 4

def payload (a : Address) : List UInt8 := a.network :: (a.spendKey.toList ++ a.viewKey.toList)

def toBytes (a : Address) : List UInt8 := a.payload ++ checksum a.payload

@[simp] theorem length_payload (a : Address) : a.payload.length = 65 := by simp [payload]

@[simp] theorem length_toBytes (a : Address) : a.toBytes.length = rawLength := by
  simp [toBytes, rawLength]

def ofPayload : List UInt8 → Except Error Address
  | [] => .error (.truncated "network")
  | network :: keys =>
    match Key.ofBytes? (keys.take 32), Key.ofBytes? (keys.drop 32) with
    | some spendKey, some viewKey => .ok ⟨network, spendKey, viewKey⟩
    | none, _ => .error (.truncated "spend key")
    | _, none => .error (.truncated "view key")

/-- Reads the raw form. The length is looked at first, then the checksum. -/
def ofBytes (raw : List UInt8) : Except Error Address :=
  if raw.length ≠ rawLength then .error (.badLength rawLength raw.length)
  else if checksum (raw.take 65) ≠ raw.drop 65 then .error .checksumMismatch
  else ofPayload (raw.take 65)

def text (a : Address) : String := Base58.encode a.toBytes

def parse (text : String) : Except Error Address := Base58.decode text >>= ofBytes

end Address
end ConfidentialTx
