import Mathlib.NumberTheory.LucasPrimality
import Mathlib.Tactic.NormNum.Prime

/-! Large primes. A number is prime if some number generates its residues, which takes powers by
repeated squaring and the prime factors of the predecessor. -/
namespace ConfidentialTx.Primality

def powMod (m a e : ℕ) : (w : ℕ) → ℕ
  | 0 => 1
  | w + 1 =>
    let r := powMod m a (e / 2) w
    let s := r * r % m
    if e % 2 = 1 then s * a % m else s

theorem mod_two_pow_succ (e w : ℕ) :
    e % 2 ^ (w + 1) = e / 2 % 2 ^ w + e / 2 % 2 ^ w + e % 2 := by
  rw [pow_succ', Nat.mod_mul]
  omega

theorem cast_powMod (m a e w : ℕ) :
    ((powMod m a e w : ℕ) : ZMod m) = (a : ZMod m) ^ (e % 2 ^ w) := by
  induction w generalizing e with
  | zero => simp [powMod, Nat.mod_one]
  | succ w ih =>
    have hsquare : ((powMod m a (e / 2) w * powMod m a (e / 2) w % m : ℕ) : ZMod m) =
        (a : ZMod m) ^ (e / 2 % 2 ^ w + e / 2 % 2 ^ w) := by
      rw [ZMod.natCast_mod, Nat.cast_mul, ih, pow_add]
    rw [mod_two_pow_succ]
    by_cases hodd : e % 2 = 1
    · simp only [powMod, if_pos hodd]
      rw [ZMod.natCast_mod, Nat.cast_mul, hsquare, hodd, pow_succ]
    · have heven : e % 2 = 0 := by omega
      simp only [powMod, if_neg hodd]
      rw [hsquare, heven, add_zero]

theorem powMod_lt {m : ℕ} (hm : 0 < m) (a e w : ℕ) : powMod m a e (w + 1) < m := by
  simp only [powMod]
  split <;> exact Nat.mod_lt _ hm

/-- The powers of `g` modulo `n` do not come back to one before `n - 1`, whose prime factors are
listed with their multiplicities. -/
structure Generates (g n : ℕ) (factors : List ℕ) : Prop where
  one_lt : 1 < n
  lt : n < 2 ^ 256
  prod_eq : factors.prod = n - 1
  pow_eq : powMod n g (n - 1) 256 = 1
  pow_ne : ∀ q ∈ factors, powMod n g ((n - 1) / q) 256 ≠ 1

instance (g n : ℕ) (factors : List ℕ) : Decidable (Generates g n factors) :=
  decidable_of_iff (1 < n ∧ n < 2 ^ 256 ∧ factors.prod = n - 1 ∧ powMod n g (n - 1) 256 = 1 ∧
      ∀ q ∈ factors, powMod n g ((n - 1) / q) 256 ≠ 1)
    ⟨fun ⟨h₁, h₂, h₃, h₄, h₅⟩ => ⟨h₁, h₂, h₃, h₄, h₅⟩,
      fun ⟨h₁, h₂, h₃, h₄, h₅⟩ => ⟨h₁, h₂, h₃, h₄, h₅⟩⟩

theorem pow_eq_one_iff {n : ℕ} (hn : 1 < n) (hbound : n < 2 ^ 256) (g : ℕ) {e : ℕ}
    (he : e < n) : (g : ZMod n) ^ e = 1 ↔ powMod n g e 256 = 1 := by
  have hexp : e % 2 ^ 256 = e := Nat.mod_eq_of_lt (he.trans hbound)
  have hlt : powMod n g e 256 < n := powMod_lt (by omega) g e 255
  have hpow := cast_powMod n g e 256
  rw [hexp] at hpow
  rw [← hpow, ← Nat.cast_one, ZMod.natCast_eq_natCast_iff', Nat.mod_eq_of_lt hlt,
    Nat.mod_eq_of_lt hn]

theorem prime_of_generates {n : ℕ} (g : ℕ) (factors : List ℕ) (hprime : ∀ q ∈ factors, q.Prime)
    (h : Generates g n factors) : n.Prime := by
  have hn := h.one_lt
  apply lucas_primality n (g : ZMod n)
  · exact (pow_eq_one_iff hn h.lt g (by omega)).mpr h.pow_eq
  · intro q hq hdvd hone
    rw [← h.prod_eq, hq.prime.dvd_prod_iff] at hdvd
    obtain ⟨r, hr, hqr⟩ := hdvd
    obtain rfl := (Nat.prime_dvd_prime_iff_eq hq (hprime r hr)).mp hqr
    have hlt : (n - 1) / q < n := lt_of_le_of_lt (Nat.div_le_self _ _) (by omega)
    exact h.pow_ne q hr ((pow_eq_one_iff hn h.lt g hlt).mp hone)

end ConfidentialTx.Primality
