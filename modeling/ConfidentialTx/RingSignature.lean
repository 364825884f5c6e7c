import ConfidentialTx.Entropy
import ConfidentialTx.Wire.Reader

/-! Linkable ring signatures. A signature holds a challenge `c` and a response `r` for every
member `P` of a ring. With `L = r * G + c * P` and `R = r * Hp(P) + c * I` for the key image
`I`, it is valid if the challenges add up to the digest of the message and all `L` and `R`. -/
namespace ConfidentialTx

structure RingElement where
  challenge : Key
  response : Key
  deriving DecidableEq, Inhabited

/-- One element per ring member, in the order of the ring. -/
structure RingSignature where
  elements : List RingElement
  deriving DecidableEq, Inhabited

namespace RingElement

def toBytes (e : RingElement) : List UInt8 := e.challenge.toList ++ e.response.toList

@[simp] theorem length_toBytes (e : RingElement) : e.toBytes.length = 64 := by simp [toBytes]

def parse : Wire.Parser RingElement := do
  let challenge ← Wire.Parser.key "ring signature c"
  let response ← Wire.Parser.key "ring signature r"
  pure ⟨challenge, response⟩

end RingElement

namespace RingSignature

def empty : RingSignature := ⟨[]⟩

def size (s : RingSignature) : Nat := s.elements.length

def toBytes (s : RingSignature) : List UInt8 := s.elements.flatMap RingElement.toBytes

@[simp] theorem length_toBytes (s : RingSignature) : s.toBytes.length = 64 * s.size := by
  obtain ⟨es⟩ := s
  simp only [toBytes, size]
  induction es with
  | nil => rfl
  | cons e es ih => simp only [List.flatMap_cons, List.length_append, ih,
      RingElement.length_toBytes, List.length_cons]; omega

/-- Reads the signature of a ring of known size, if enough bytes are left for it. -/
def parse (ringSize : Nat) : Wire.Parser RingSignature := do
  let left ← Wire.Parser.remaining
  if left < Wire.saturate (ringSize * 64) then Wire.Parser.fail (.truncated "ring signature")
  else do
    let elements ← RingElement.parse.times ringSize
    pure ⟨elements⟩

variable (C : KeyGroup)

/-- `L = r * G + c * P`. -/
def leftPoint (P : C.Point) (c r : C.Scalar) : C.Point := C.smulAddBase c P r

/-- `R = r * Hp(P) + c * I`. -/
def rightPoint (key : Key) (image : C.Point) (c r : C.Scalar) : C.Point :=
  C.smulAdd r (C.hashToPoint key) c image

def transcript (L R : C.Point) : List UInt8 := (C.pointKey L).toList ++ (C.pointKey R).toList

def challenge (message : Digest) (transcripts : List (List UInt8)) : C.Scalar :=
  C.hashToScalar (message.toList ++ transcripts.flatten)

def total (cs : List C.Scalar) : C.Scalar := cs.foldl C.scalarAdd (C.scalarOfAmount 0)

structure Decoy where
  challenge : C.Scalar
  response : C.Scalar
  transcript : List UInt8

def Decoy.element (d : Decoy C) : RingElement :=
  ⟨C.scalarKey d.challenge, C.scalarKey d.response⟩

def decoy (image : C.Point) (key : Key) : Draw (Decoy C) :=
  match C.point? key with
  | none => throw (.invalidPoint "mixin public key")
  | some P => do
    let c ← Draw.scalar C
    let r ← Draw.scalar C
    pure ⟨c, r, transcript C (leftPoint C P c r) (rightPoint C key image c r)⟩

structure Signed where
  keyImage : Key
  publicKeys : List Key
  signature : RingSignature
  deriving DecidableEq, Inhabited

def signAt (message : Digest) (mixins : List Key) (secret : C.Scalar) (image : C.Point)
    (index : Nat) : Draw Signed := do
  let signer := C.publicKey secret
  let nonce ← Draw.scalar C
  let before ← (mixins.take index).mapM (decoy C image)
  let after ← (mixins.drop index).mapM (decoy C image)
  let own := transcript C (C.smulBase nonce) (C.smul nonce (C.hashToPoint signer))
  let h := challenge C message
    (before.map (·.transcript) ++ own :: after.map (·.transcript))
  let c := C.scalarSub h (total C ((before ++ after).map (·.challenge)))
  let r := C.scalarMulSub c secret nonce
  pure {
    keyImage := C.keyImage secret
    publicKeys := mixins.take index ++ signer :: mixins.drop index
    signature := ⟨before.map (Decoy.element C) ++
      ⟨C.scalarKey c, C.scalarKey r⟩ :: after.map (Decoy.element C)⟩ }

/-- Signs a message with a secret and hides the signer among other keys, at a place of which
all are equally likely. Every other key has to be a point. -/
def sign (attempts : Nat) (message : Digest) (mixins : List Key) (secret : C.Scalar) :
    Draw Signed :=
  match C.point? (C.keyImage secret) with
  | none => throw (.invalidPoint "key image")
  | some image => do
    let index ← Draw.below attempts (mixins.length + 1)
    signAt C message mixins secret image index

inductive Rejection where
  | ringSize (keys elements : Nat)
  | keyImage (key : Key)
  | nonCanonical (index : Nat)
  | notPoint (index : Nat)
  | challenge
  deriving DecidableEq, Inhabited

def Rejection.lines : Rejection → List String
  | ringSize keys elements =>
    [s!"ring of {keys} keys does not match signature of {elements} elements"]
  | keyImage key => [s!"key image {key.text} is not a valid point"]
  | nonCanonical index => [s!"ring member {index} has a non-canonical scalar"]
  | notPoint index => [s!"ring member {index} is not a valid point"]
  | challenge => ["ring signature challenge does not close"]

structure Member where
  key : Key
  point : C.Point
  challenge : C.Scalar
  response : C.Scalar

def members (i : Nat) : List Key → List RingElement → Except Rejection (List (Member C))
  | key :: keys, e :: es =>
    match C.scalar? e.challenge, C.scalar? e.response with
    | some c, some r =>
      match C.point? key with
      | some P => (members (i + 1) keys es).map (⟨key, P, c, r⟩ :: ·)
      | none => .error (.notPoint i)
    | _, _ => .error (.nonCanonical i)
  | _, _ => .ok []

def Member.transcript (image : C.Point) (m : Member C) : List UInt8 :=
  RingSignature.transcript C (leftPoint C m.point m.challenge m.response)
    (rightPoint C m.key image m.challenge m.response)

def check (message : Digest) (image : Key) (ring : List Key) (s : RingSignature) :
    Except Rejection Unit :=
  if ring.length ≠ s.size ∨ ring = [] then .error (.ringSize ring.length s.size)
  else
    match C.point? image with
    | none => .error (.keyImage image)
    | some I => do
      let ms ← members C 0 ring s.elements
      let h := challenge C message (ms.map (Member.transcript C I))
      if C.scalarIsZero (C.scalarSub h (total C (ms.map (·.challenge)))) then pure ()
      else .error .challenge

def verify (message : Digest) (image : Key) (ring : List Key) (s : RingSignature) : Bool :=
  (check C message image ring s).isOk

end RingSignature
end ConfidentialTx
