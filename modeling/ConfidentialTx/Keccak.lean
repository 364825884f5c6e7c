import ConfidentialTx.Tuple

/-! Keccak digests with the padding `1 0* 1` and no domain bits: 256 and 512 bits. -/
namespace ConfidentialTx
namespace Keccak

/-- Five lanes with one `y` coordinate. -/
structure Plane where
  a : UInt64
  b : UInt64
  c : UInt64
  d : UInt64
  e : UInt64

structure State where
  p : Plane
  q : Plane
  r : Plane
  s : Plane
  t : Plane

def rotate (w n : UInt64) : UInt64 := (w <<< n) ||| (w >>> (64 - n))

def Plane.zero : Plane := ⟨0, 0, 0, 0, 0⟩

def Plane.xor (u v : Plane) : Plane :=
  ⟨u.a ^^^ v.a, u.b ^^^ v.b, u.c ^^^ v.c, u.d ^^^ v.d, u.e ^^^ v.e⟩

/-- From the column parities, what each column is to be combined with. -/
def Plane.spread (u : Plane) : Plane :=
  ⟨u.e ^^^ rotate u.b 1, u.a ^^^ rotate u.c 1, u.b ^^^ rotate u.d 1,
    u.c ^^^ rotate u.e 1, u.d ^^^ rotate u.a 1⟩

/-- The only nonlinear step. -/
def Plane.chi (u : Plane) : Plane :=
  ⟨u.a ^^^ (~~~u.b &&& u.c), u.b ^^^ (~~~u.c &&& u.d), u.c ^^^ (~~~u.d &&& u.e),
    u.d ^^^ (~~~u.e &&& u.a), u.e ^^^ (~~~u.a &&& u.b)⟩

def State.zero : State := ⟨.zero, .zero, .zero, .zero, .zero⟩

def State.xor (u v : State) : State :=
  ⟨u.p.xor v.p, u.q.xor v.q, u.r.xor v.r, u.s.xor v.s, u.t.xor v.t⟩

def State.theta (u : State) : State :=
  let w := ((((u.p.xor u.q).xor u.r).xor u.s).xor u.t).spread
  ⟨u.p.xor w, u.q.xor w, u.r.xor w, u.s.xor w, u.t.xor w⟩

/-- Rotates every lane by its own distance and moves it to its new place. -/
def State.shuffle (u : State) : State :=
  ⟨⟨u.p.a, rotate u.q.b 44, rotate u.r.c 43, rotate u.s.d 21, rotate u.t.e 14⟩,
    ⟨rotate u.p.d 28, rotate u.q.e 20, rotate u.r.a 3, rotate u.s.b 45, rotate u.t.c 61⟩,
    ⟨rotate u.p.b 1, rotate u.q.c 6, rotate u.r.d 25, rotate u.s.e 8, rotate u.t.a 18⟩,
    ⟨rotate u.p.e 27, rotate u.q.a 36, rotate u.r.b 10, rotate u.s.c 15, rotate u.t.d 56⟩,
    ⟨rotate u.p.c 62, rotate u.q.d 55, rotate u.r.e 39, rotate u.s.a 41, rotate u.t.b 2⟩⟩

def State.chi (u : State) : State := ⟨u.p.chi, u.q.chi, u.r.chi, u.s.chi, u.t.chi⟩

def State.iota (constant : UInt64) (u : State) : State :=
  { u with p := { u.p with a := u.p.a ^^^ constant } }

def roundConstants : List UInt64 :=
  [0x0000000000000001, 0x0000000000008082, 0x800000000000808a, 0x8000000080008000,
    0x000000000000808b, 0x0000000080000001, 0x8000000080008081, 0x8000000000008009,
    0x000000000000008a, 0x0000000000000088, 0x0000000080008009, 0x000000008000000a,
    0x000000008000808b, 0x800000000000008b, 0x8000000000008089, 0x8000000000008003,
    0x8000000000008002, 0x8000000000000080, 0x000000000000800a, 0x800000008000000a,
    0x8000000080008081, 0x8000000000008080, 0x0000000080000001, 0x8000000080008008]

def permute (u : State) : State :=
  roundConstants.foldl (fun u constant => u.theta.shuffle.chi.iota constant) u

/-- The lane made of up to eight bytes, least significant first. -/
def lane (bytes : List UInt8) : UInt64 :=
  bytes.foldr (fun b w => (w <<< 8) ||| b.toUInt64) 0

def lanes : Nat → List UInt8 → List UInt64
  | 0, _ => []
  | n + 1, bytes => lane (bytes.take 8) :: lanes n (bytes.drop 8)

def State.ofLanes (ws : List UInt64) : State :=
  let w := ws.toArray
  let plane := fun i : Nat => (⟨w.getD i 0, w.getD (i + 1) 0, w.getD (i + 2) 0,
    w.getD (i + 3) 0, w.getD (i + 4) 0⟩ : Plane)
  ⟨plane 0, plane 5, plane 10, plane 15, plane 20⟩

def absorb (rate : Nat) (u : State) (block : List UInt8) : State :=
  permute (u.xor (.ofLanes (lanes rate block)))

/-- The bytes that fill up the last block of `8 * rate` bytes: a one bit, zeros, a one bit. -/
def padding (rate length : Nat) : List UInt8 :=
  match 8 * rate - length % (8 * rate) with
  | 0 => []
  | 1 => [0x81]
  | n + 2 => 0x01 :: (List.replicate n 0x00 ++ [0x80])

def absorbBlocks (rate : Nat) : Nat → State → List UInt8 → State
  | 0, u, _ => u
  | n + 1, u, bytes => absorbBlocks rate n (absorb rate u (bytes.take (8 * rate)))
      (bytes.drop (8 * rate))

def sponge (rate : Nat) (message : List UInt8) : State :=
  absorbBlocks rate (message.length / (8 * rate) + 1) .zero
    (message ++ padding rate message.length)

def octets (w : UInt64) : List UInt8 :=
  [w.toUInt8, (w >>> 8).toUInt8, (w >>> 16).toUInt8, (w >>> 24).toUInt8,
    (w >>> 32).toUInt8, (w >>> 40).toUInt8, (w >>> 48).toUInt8, (w >>> 56).toUInt8]

@[simp] theorem length_octets (w : UInt64) : (octets w).length = 8 := rfl

end Keccak

def keccak256 (message : List UInt8) : Tuple UInt8 32 :=
  let u := (Keccak.sponge 17 message).p
  ⟨Keccak.octets u.a ++ Keccak.octets u.b ++ Keccak.octets u.c ++ Keccak.octets u.d, by simp⟩

def keccak512 (message : List UInt8) : Tuple UInt8 64 :=
  let u := Keccak.sponge 9 message
  ⟨Keccak.octets u.p.a ++ Keccak.octets u.p.b ++ Keccak.octets u.p.c ++ Keccak.octets u.p.d ++
    Keccak.octets u.p.e ++ Keccak.octets u.q.a ++ Keccak.octets u.q.b ++ Keccak.octets u.q.c,
    by simp⟩

end ConfidentialTx
