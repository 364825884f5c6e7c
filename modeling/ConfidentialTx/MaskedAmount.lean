import ConfidentialTx.KeyGroup

/-! Amounts and masks hidden from everyone but the recipient: scalars that are derived from a
secret shared with the recipient are added to both. -/
namespace ConfidentialTx

structure MaskedAmount where
  mask : Key
  amount : Key
  /-- Never written to the wire. -/
  senderKey : Key
  deriving DecidableEq, Inhabited

namespace MaskedAmount

variable (C : KeyGroup)

def maskOffset (secret : Key) : C.Scalar := C.hashToScalar secret.toList

def amountOffset (secret : Key) : C.Scalar :=
  C.hashToScalar (C.scalarKey (maskOffset C secret)).toList

def encode (mask : C.Scalar) (amount : UInt64) (secret : Key) : MaskedAmount where
  mask := C.scalarKey (C.scalarAdd mask (maskOffset C secret))
  amount := C.scalarKey (C.scalarAdd (C.scalarOfAmount amount) (amountOffset C secret))
  senderKey := .zero

/-- The amount in a key of which only the first eight bytes may be other than zero. -/
def amountOfKey? (k : Key) : Option UInt64 :=
  if (k.toList.drop 8).all (· == 0) then some (UInt64.ofNat (Bytes.toNatLE (k.toList.take 8)))
  else none

/-- The amount and the mask. An amount beyond 64 bits is refused: a wrong secret nearly always
leads to one. -/
def decode (m : MaskedAmount) (secret : Key) : Except Error (UInt64 × C.Scalar) :=
  match C.scalar? m.mask with
  | none => .error (.invalidScalar "ecdh mask")
  | some mask =>
    match C.scalar? m.amount with
    | none => .error (.invalidScalar "ecdh amount")
    | some amount =>
      match amountOfKey? (C.scalarKey (C.scalarSub amount (amountOffset C secret))) with
      | none => .error (.overflow "ecdh amount")
      | some amount => .ok (amount, C.scalarSub mask (maskOffset C secret))

end MaskedAmount
end ConfidentialTx
