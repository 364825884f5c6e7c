/-! Arithmetic modulo `p = 2 ^ 255 - 19` on natural numbers. Arguments of `sub` and `neg` are
reduced; every result is. -/
namespace ConfidentialTx.Edwards.Coordinate

/-- The field modulus `2 ^ 255 - 19`. -/
def p : Nat := 0x7fffffffffffffffffffffffffffffffffffffffffffffffffffffffffffffed

def add (a b : Nat) : Nat := (a + b) % p

def sub (a b : Nat) : Nat := (a + p - b) % p

def neg (a : Nat) : Nat := sub 0 a

def mul (a b : Nat) : Nat := a * b % p

def square (a : Nat) : Nat := a * a % p

theorem p_pos : 0 < p := by decide

theorem add_lt (a b : Nat) : add a b < p := Nat.mod_lt _ p_pos
theorem sub_lt (a b : Nat) : sub a b < p := Nat.mod_lt _ p_pos
theorem mul_lt (a b : Nat) : mul a b < p := Nat.mod_lt _ p_pos
theorem square_lt (a : Nat) : square a < p := Nat.mod_lt _ p_pos

/-- The power of `a` whose exponent is the `w` low bits of `e`. -/
def pow (a e : Nat) : (w : Nat) → Nat
  | 0 => 1
  | w + 1 =>
    let s := square (pow a (e / 2) w)
    if e % 2 = 1 then mul s a else s

/-- The inverse of a number that is not zero; zero for zero. -/
def inv (a : Nat) : Nat := pow a (p - 2) 255

def sqrtMinusOne : Nat := 0x2b8324804fc1df0b2b4d00993dfbd7a72f431806ad2fe478c4ee1b274a0ea0b0

theorem square_sqrtMinusOne : square sqrtMinusOne = neg 1 := by decide

/-- `a ^ ((p + 3) / 8)`: where `a` is a square, a root of `a` or of `-a`. -/
def halfRoot (a : Nat) : Nat := pow a ((p + 3) / 8) 255

def sqrt? (a : Nat) : Option Nat :=
  let r := halfRoot a
  if square r = a then some r
  else
    let s := mul r sqrtMinusOne
    if square s = a then some s else none

theorem square_of_sqrt? {a r : Nat} (h : sqrt? a = some r) : square r = a := by
  simp only [sqrt?] at h
  split at h
  · cases h; assumption
  · split at h
    · cases h; assumption
    · cases h

def isOdd (a : Nat) : Bool := a % 2 == 1

end ConfidentialTx.Edwards.Coordinate
