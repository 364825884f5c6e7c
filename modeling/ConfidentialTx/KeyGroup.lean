import ConfidentialTx.Key
import ConfidentialTx.Bytes.Number

/-! Groups whose scalars and points are stored as keys. The signature schemes know a group
only by these operations; nothing here says that they obey any law. -/
namespace ConfidentialTx

/-- A group with base point `G`, a second point `H` for amounts, and its scalars. -/
structure KeyGroup where
  Scalar : Type
  Point : Type
  scalarDecEq : DecidableEq Scalar
  pointDecEq : DecidableEq Point
  /-- 64 bytes, least significant first, as a scalar. -/
  reduceWide : Tuple UInt8 64 → Scalar
  /-- 32 bytes, least significant first, as a scalar. -/
  reduce : Tuple UInt8 32 → Scalar
  /-- The scalar that a key is the only encoding of. -/
  scalar? : Key → Option Scalar
  scalarOfAmount : UInt64 → Scalar
  scalarKey : Scalar → Key
  scalarAdd : Scalar → Scalar → Scalar
  scalarSub : Scalar → Scalar → Scalar
  /-- `c - a * b` from `a`, `b` and `c`. -/
  scalarMulSub : Scalar → Scalar → Scalar → Scalar
  scalarIsZero : Scalar → Bool
  point? : Key → Option Point
  pointKey : Point → Key
  /-- A digest mapped to a point, before the cofactor is cleared. -/
  pointOfDigest : Digest → Point
  zero : Point
  /-- The point `H`, whose logarithm to base `G` nobody knows. -/
  amountBase : Point
  add : Point → Point → Point
  sub : Point → Point → Point
  smulBase : Scalar → Point
  smul : Scalar → Point → Point
  /-- `a * P + b * G` from `a`, `P` and `b`. -/
  smulAddBase : Scalar → Point → Scalar → Point
  /-- `a * P + b * Q` from `a`, `P`, `b` and `Q`. -/
  smulAdd : Scalar → Point → Scalar → Point → Point
  mulByCofactor : Point → Point

namespace KeyGroup

variable (C : KeyGroup)

instance : DecidableEq C.Scalar := C.scalarDecEq
instance : DecidableEq C.Point := C.pointDecEq

/-- `Hs`: the digest of a byte string as a scalar. -/
def hashToScalar (bytes : List UInt8) : C.Scalar := C.reduce (keccak256 bytes)

/-- `Hp`: the digest of a key as a point of the prime-order subgroup. -/
def hashToPoint (k : Key) : C.Point := C.mulByCofactor (C.pointOfDigest (keccak256 k.toList))

def hashKeys (ks : List Key) : C.Scalar := C.hashToScalar (Key.concat ks)

def hashOfPoint (P : C.Point) : C.Scalar := C.hashToScalar (C.pointKey P).toList

def publicKey (x : C.Scalar) : Key := C.pointKey (C.smulBase x)

/-- `x * Hp(x * G)`: it tells that a secret was used twice, and no more. -/
def keyImage (x : C.Scalar) : Key :=
  C.pointKey (C.smul x (C.hashToPoint (C.publicKey x)))

end KeyGroup
end ConfidentialTx
