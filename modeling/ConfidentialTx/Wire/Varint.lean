/-! Variable-length integers: groups of seven bits, least significant first, every byte but the
last with its high bit set. -/
namespace ConfidentialTx.Wire.Varint

/-- The shortest encoding of a number. -/
def encode (n : Nat) : List UInt8 :=
  if n < 128 then [UInt8.ofNat n] else UInt8.ofNat (n % 128 + 128) :: encode (n / 128)
termination_by n
decreasing_by omega

theorem encode_of_lt {n : Nat} (h : n < 128) : encode n = [UInt8.ofNat n] := by
  rw [encode, if_pos h]

theorem encode_of_le {n : Nat} (h : 128 ≤ n) :
    encode n = UInt8.ofNat (n % 128 + 128) :: encode (n / 128) := by
  rw [encode, if_neg (by omega)]

theorem encode_ne_nil (n : Nat) : encode n ≠ [] := by
  rw [encode]; split <;> simp

def group (b : UInt8) : Nat := b.toNat % 128

def continues (b : UInt8) : Bool := 128 ≤ b.toNat

end ConfidentialTx.Wire.Varint
