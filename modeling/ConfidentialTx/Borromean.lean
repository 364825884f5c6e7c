import ConfidentialTx.Entropy

/-! Ring signatures over 64 rings of two points each that share one challenge. In every ring the
signer knows the logarithm of one of the points and nobody learns of which. -/
namespace ConfidentialTx.Borromean

structure Signature where
  first : Tuple Key 64
  second : Tuple Key 64
  challenge : Key
  deriving DecidableEq, Inhabited

variable (C : KeyGroup)

/-- A ring with the logarithm of its second point, if `isSecond` holds, or else of its first. -/
structure Ring where
  secret : C.Scalar
  first : C.Point
  second : C.Point
  isSecond : Bool

/-- A ring before the challenge is known. -/
structure Opened where
  ring : Ring C
  nonce : C.Scalar
  last : Key
  second : C.Scalar

/-- Draws a nonce and, where the second point is not the signer's, its response. -/
def openRing (ring : Ring C) : Draw (Opened C) := do
  let nonce ← Draw.scalar C
  let L := C.smulBase nonce
  if ring.isSecond then pure ⟨ring, nonce, C.pointKey L, nonce⟩
  else do
    let s ← Draw.scalar C
    pure ⟨ring, nonce, C.pointKey (C.smulAddBase (C.hashOfPoint L) ring.second s), s⟩

def closeRing (challenge : C.Scalar) (o : Opened C) : Draw (Key × Key) :=
  if o.ring.isSecond then do
    let s ← Draw.scalar C
    let c := C.hashOfPoint (C.smulAddBase challenge o.ring.first s)
    pure (C.scalarKey s, C.scalarKey (C.scalarMulSub o.ring.secret c o.nonce))
  else
    pure (C.scalarKey (C.scalarMulSub o.ring.secret challenge o.nonce), C.scalarKey o.second)

def signRings (rings : Tuple (Ring C) 64) : Draw Signature := do
  let opened ← rings.mapM (openRing C) 64
  let challenge := C.hashKeys (opened.map (·.last)).toList
  let responses ← opened.mapM (closeRing C challenge) 64
  pure ⟨responses.map (·.1), responses.map (·.2), C.scalarKey challenge⟩

def sized {α : Type} (field : String) (l : List α) : Except Error (Tuple α 64) :=
  match Tuple.ofList? 64 l with
  | some t => .ok t
  | none => .error (.shapeMismatch field 64 l.length)

/-- Signs for rings given as lists: the secrets, the first points, the second points, and
which of the two belongs to the secret. -/
def sign (secrets : List C.Scalar) (first second : List C.Point) (isSecond : List Bool) :
    Draw Signature := do
  let secrets ← sized "borromean secrets" secrets
  let first ← sized "borromean first ring" first
  let second ← sized "borromean second ring" second
  let isSecond ← sized "borromean indices" isSecond
  signRings C (Tuple.zipWith (fun r b => r b) (Tuple.zipWith (fun r q => r q)
    (Tuple.zipWith (fun x p => Ring.mk x p) secrets first) second) isSecond)

def lastKey (challenge : C.Scalar) (P Q : C.Point) (s t : C.Scalar) : Key :=
  C.pointKey (C.smulAddBase (C.hashOfPoint (C.smulAddBase challenge P s)) Q t)

def lastKeys (challenge : C.Scalar) :
    List C.Point → List C.Point → List Key → List Key → Option (List Key)
  | P :: Ps, Q :: Qs, s :: ss, t :: ts => do
    let s ← C.scalar? s
    let t ← C.scalar? t
    let ks ← lastKeys challenge Ps Qs ss ts
    pure (lastKey C challenge P Q s t :: ks)
  | _, _, _, _ => some []

def verifyRings (s : Signature) (first second : Tuple C.Point 64) : Bool :=
  match C.scalar? s.challenge with
  | none => false
  | some c =>
    match lastKeys C c first.toList second.toList s.first.toList s.second.toList with
    | none => false
    | some ks => C.scalarKey (C.hashKeys ks) == s.challenge

def verify (s : Signature) (first second : List C.Point) : Bool :=
  match Tuple.ofList? 64 first, Tuple.ofList? 64 second with
  | some first, some second => verifyRings C s first second
  | _, _ => false

end ConfidentialTx.Borromean
