import ConfidentialTx.Key
import ConfidentialTx.Bytes.Number

/-! Integers modulo `n` as keys: 32 bytes, least significant first. Reading accepts exactly what
writing produces. -/
namespace ConfidentialTx.Residue

variable {n : Nat}

def ofNat (hn : 0 < n) (k : Nat) : Fin n := ⟨k % n, Nat.mod_lt k hn⟩

def ofBytes (hn : 0 < n) (bytes : List UInt8) : Fin n := ofNat hn (Bytes.toNatLE bytes)

def toKey (s : Fin n) : Key := ⟨Bytes.ofNatLE 32 s.val, by simp⟩

/-- The residue whose representative below `n` a key holds. -/
def ofKey? (n : Nat) (k : Key) : Option (Fin n) :=
  if h : Bytes.toNatLE k.toList < n then some ⟨Bytes.toNatLE k.toList, h⟩ else none

theorem ofKey?_eq_some_iff (hn : n ≤ Bytes.bound 32) {k : Key} {s : Fin n} :
    ofKey? n k = some s ↔ k = toKey s := by
  constructor
  · intro h
    simp only [ofKey?] at h
    split at h
    · cases h
      have hk := Bytes.ofNatLE_toNatLE k.toList
      rw [k.length_toList] at hk
      exact Tuple.ext hk.symm
    · cases h
  · rintro rfl
    have hs : s.val % Bytes.bound 32 = s.val := Nat.mod_eq_of_lt (Nat.lt_of_lt_of_le s.isLt hn)
    simp only [ofKey?, toKey, Bytes.toNatLE_ofNatLE, hs, s.isLt, dite_true, Fin.eta]

end ConfidentialTx.Residue
