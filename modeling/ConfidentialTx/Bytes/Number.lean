/-! Numbers written as bytes, least or most significant byte first. Writing `w` bytes and
reading them back gives the number modulo `bound w`; reading and writing again gives the
bytes. -/
namespace ConfidentialTx.Bytes

/-- The number of values that `w` bytes can hold. -/
def bound : Nat → Nat
  | 0 => 1
  | w + 1 => 256 * bound w

/-- The number whose bytes are listed from the least significant one. -/
def toNatLE : List UInt8 → Nat
  | [] => 0
  | b :: bs => b.toNat + 256 * toNatLE bs

/-- The `w` least significant bytes of a number, least significant first. -/
def ofNatLE : Nat → Nat → List UInt8
  | 0, _ => []
  | w + 1, n => UInt8.ofNat (n % 256) :: ofNatLE w (n / 256)

@[simp] theorem length_ofNatLE (w n : Nat) : (ofNatLE w n).length = w := by
  induction w generalizing n with
  | zero => rfl
  | succ w ih => simp [ofNatLE, ih]

theorem toNatLE_lt (bs : List UInt8) : toNatLE bs < bound bs.length := by
  induction bs with
  | nil => simp [toNatLE, bound]
  | cons b bs ih =>
    have hb := b.toNat_lt
    simp only [toNatLE, List.length_cons, bound]
    omega

@[simp] theorem toNatLE_ofNatLE (w n : Nat) : toNatLE (ofNatLE w n) = n % bound w := by
  induction w generalizing n with
  | zero => simp [ofNatLE, toNatLE, bound, Nat.mod_one]
  | succ w ih =>
    simp only [ofNatLE, toNatLE, ih, UInt8.toNat_ofNat']
    rw [bound, Nat.mod_mul]
    omega

@[simp] theorem ofNatLE_toNatLE (bs : List UInt8) : ofNatLE bs.length (toNatLE bs) = bs := by
  induction bs with
  | nil => rfl
  | cons b bs ih =>
    have hb := b.toNat_lt
    have h₁ : (b.toNat + 256 * toNatLE bs) % 256 = b.toNat := by omega
    have h₂ : (b.toNat + 256 * toNatLE bs) / 256 = toNatLE bs := by omega
    simp [toNatLE, ofNatLE, h₁, h₂, ih]

def toNatBE (bs : List UInt8) : Nat := bs.foldl (fun n b => 256 * n + b.toNat) 0

def ofNatBE (w n : Nat) : List UInt8 := (ofNatLE w n).reverse

@[simp] theorem length_ofNatBE (w n : Nat) : (ofNatBE w n).length = w := by simp [ofNatBE]

theorem toNatBE_eq_reverse (bs : List UInt8) : toNatBE bs = toNatLE bs.reverse := by
  have h : ∀ l : List UInt8, l.foldr (fun b n => 256 * n + b.toNat) 0 = toNatLE l := by
    intro l
    induction l with
    | nil => rfl
    | cons b l ih => simp [toNatLE, ih, Nat.add_comm]
  rw [← h, List.foldr_reverse, toNatBE]

theorem toNatBE_lt (bs : List UInt8) : toNatBE bs < bound bs.length := by
  rw [toNatBE_eq_reverse, ← List.length_reverse]
  exact toNatLE_lt _

@[simp] theorem toNatBE_ofNatBE (w n : Nat) : toNatBE (ofNatBE w n) = n % bound w := by
  simp [toNatBE_eq_reverse, ofNatBE]

@[simp] theorem ofNatBE_toNatBE (bs : List UInt8) : ofNatBE bs.length (toNatBE bs) = bs := by
  rw [toNatBE_eq_reverse, ofNatBE, ← List.length_reverse, ofNatLE_toNatLE, List.reverse_reverse]

end ConfidentialTx.Bytes
