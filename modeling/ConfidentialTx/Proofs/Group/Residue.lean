import ConfidentialTx.Proofs.Group.Laws
import ConfidentialTx.Residue.Group
import Mathlib.Algebra.Group.Fin.Basic
import Mathlib.NumberTheory.LucasLehmer

/-! The additive groups of residues modulo a prime obey the laws, so these do not contradict each
other. -/
namespace ConfidentialTx.Residue

section

variable {n : ℕ} [NeZero n]

theorem val_finEquiv (a : Fin n) : (ZMod.finEquiv n a).val = a.val := by
  cases n with
  | zero => exact a.elim0
  | succ n => rfl

theorem finEquiv_ofNat (hn : 0 < n) (k : ℕ) : ZMod.finEquiv n (ofNat hn k) = k := by
  apply ZMod.val_injective n
  rw [val_finEquiv, ZMod.val_natCast]
  rfl

theorem finEquiv_mulSub (a b c : Fin n) : ZMod.finEquiv n (c - a * b) =
    ZMod.finEquiv n c - ZMod.finEquiv n a * ZMod.finEquiv n b := by
  rw [map_sub, map_mul]

theorem mul_eq_val_nsmul (a P : Fin n) : a * P = (ZMod.finEquiv n a).val • P := by
  apply (ZMod.finEquiv n).injective
  rw [map_mul, map_nsmul, nsmul_eq_mul, ZMod.natCast_zmod_val]

theorem eq_val_nsmul_one (a : Fin n) : a = (ZMod.finEquiv n a).val • (1 : Fin n) := by
  rw [← mul_eq_val_nsmul, mul_one]

theorem card_nsmul (P : Fin n) : n • P = 0 := by
  apply (ZMod.finEquiv n).injective
  rw [map_nsmul, nsmul_eq_mul, ZMod.natCast_self, zero_mul, map_zero]

theorem val_eq_zero_iff_finEquiv (a : Fin n) : (a.val == 0) = true ↔ ZMod.finEquiv n a = 0 := by
  rw [beq_iff_eq, ← val_finEquiv, ZMod.val_eq_zero]

end

theorem ofKey?_toKey {n : ℕ} (hn : n ≤ Bytes.bound 32) (a : Fin n) : ofKey? n (toKey a) = some a :=
  (ofKey?_eq_some_iff hn).mpr rfl

instance (n : ℕ) (hn : 0 < n) [hprime : Fact n.Prime] [hbound : Fact (n ≤ Bytes.bound 32)] :
    KeyGroup.Lawful (modularGroup n hn) :=
  have : NeZero n := ⟨hn.ne'⟩
  { toAddCommGroup := Fin.addCommGroup n
    order := n
    order_prime := hprime.out
    residue := (ZMod.finEquiv n).toEquiv
    residue_ofAmount := fun v => finEquiv_ofNat hn v.toNat
    residue_add := fun (a b : Fin n) => map_add (ZMod.finEquiv n) a b
    residue_sub := fun (a b : Fin n) => map_sub (ZMod.finEquiv n) a b
    residue_mulSub := finEquiv_mulSub
    isZero_iff := val_eq_zero_iff_finEquiv
    base := (1 : Fin n)
    zero_eq := rfl
    add_eq := fun _ _ => rfl
    sub_eq := fun _ _ => rfl
    smulBase_eq := eq_val_nsmul_one
    smul_eq := mul_eq_val_nsmul
    smulAddBase_eq := fun _ _ _ => rfl
    smulAdd_eq := fun _ _ _ _ => rfl
    order_nsmul_base := card_nsmul 1
    order_nsmul_amountBase := card_nsmul _
    order_nsmul_mulByCofactor := card_nsmul
    point?_pointKey := ofKey?_toKey hbound.out
    scalar?_eq_some_iff := fun _ _ => ofKey?_eq_some_iff hbound.out }

/-! ## Two primes -/

instance : Fact order.Prime := by
  have h : order = mersenne 61 := by decide
  rw [h]
  exact ⟨lucas_lehmer_sufficiency 61 (by decide) (by norm_num)⟩

instance : Fact (order ≤ Bytes.bound 32) := ⟨by decide⟩

/-- The prime `2 ^ 127 - 1`, which has room for sums of amounts. -/
def wideOrder : ℕ := 0x7fffffffffffffffffffffffffffffff

theorem wideOrder_pos : 0 < wideOrder := by decide

instance : Fact wideOrder.Prime := by
  have h : wideOrder = mersenne 127 := by decide
  rw [h]
  exact ⟨lucas_lehmer_sufficiency 127 (by decide) (by norm_num)⟩

instance : Fact (wideOrder ≤ Bytes.bound 32) := ⟨by decide⟩

abbrev wideGroup : KeyGroup := modularGroup wideOrder wideOrder_pos

end ConfidentialTx.Residue
