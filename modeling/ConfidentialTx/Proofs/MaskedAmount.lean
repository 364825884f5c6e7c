import ConfidentialTx.MaskedAmount
import ConfidentialTx.Proofs.Group.ScalarAction

/-! Masked amounts. What is unmasked is an amount exactly if it was masked as one: a scalar is written
as its representative, so the bytes of an amount are those of the scalar of an amount and of no other,
whatever was taken from it on the way round the order. -/
namespace ConfidentialTx

namespace Bytes

theorem ofNatLE_zero (w : ℕ) : ofNatLE w 0 = List.replicate w 0 := by
  induction w with
  | zero => rfl
  | succ w ih =>
    rw [ofNatLE, Nat.zero_mod, Nat.zero_div, ih, List.replicate_succ]
    rfl

theorem ofNatLE_add (v w n : ℕ) : ofNatLE (v + w) n = ofNatLE v n ++ ofNatLE w (n / bound v) := by
  induction v generalizing n with
  | zero => simp [ofNatLE, bound]
  | succ v ih =>
    rw [Nat.succ_add, ofNatLE, ih, ofNatLE, bound, Nat.div_div_eq_div_mul, List.cons_append]

theorem ofNat_toNatLE_eq_iff {bytes : List UInt8} (hlength : bytes.length = 8) {v : UInt64} :
    UInt64.ofNat (toNatLE bytes) = v ↔ bytes = ofNatLE 8 v.toNat := by
  have hbound : bound 8 = 2 ^ 64 := rfl
  have hlt := toNatLE_lt bytes
  rw [hlength, hbound] at hlt
  rw [← UInt64.toNat_inj, UInt64.toNat_ofNat', Nat.mod_eq_of_lt hlt]
  constructor
  · intro h
    rw [← h, ← hlength, ofNatLE_toNatLE]
  · rintro rfl
    rw [toNatLE_ofNatLE, hbound, Nat.mod_eq_of_lt v.toNat_lt]

end Bytes

namespace KeyGroup.ScalarAction

variable {C : KeyGroup} [ScalarAction C]

theorem scalarSub_eq_iff {a b c : C.Scalar} : C.scalarSub a b = c ↔ a = C.scalarAdd c b := by
  rw [← residue.apply_eq_iff_eq, ← residue.apply_eq_iff_eq (x := a), residue_sub, residue_add,
    sub_eq_iff_eq_add]

/-- An amount is its own representative if the order is no amount. -/
theorem val_residue_ofAmount (horder : 2 ^ 64 ≤ order C) (v : UInt64) :
    (residue (C.scalarOfAmount v)).val = v.toNat := by
  rw [residue_ofAmount, ZMod.val_natCast, Nat.mod_eq_of_lt (v.toNat_lt.trans_le horder)]

end KeyGroup.ScalarAction

namespace MaskedAmount

open KeyGroup.ScalarAction

theorem amountOfKey?_eq_some_iff {k : Key} {v : UInt64} :
    amountOfKey? k = some v ↔ k.toList = Bytes.ofNatLE 32 v.toNat := by
  have hv : v.toNat / Bytes.bound 8 = 0 := Nat.div_eq_of_lt v.toNat_lt
  have hsplit : k.toList = Bytes.ofNatLE 32 v.toNat ↔
      k.toList.take 8 = Bytes.ofNatLE 8 v.toNat ∧ k.toList.drop 8 = List.replicate 24 0 := by
    rw [Bytes.ofNatLE_add 8 24, hv, Bytes.ofNatLE_zero]
    nth_rewrite 1 [← List.take_append_drop 8 k.toList]
    exact List.append_eq_append_iff_of_size_eq_left (by simp)
  have hzeros : (k.toList.drop 8).all (· == 0) = true ↔
      k.toList.drop 8 = List.replicate 24 0 := by
    rw [List.eq_replicate_iff]
    simp
  rw [amountOfKey?, hsplit]
  by_cases hdrop : k.toList.drop 8 = List.replicate 24 0
  · rw [if_pos (hzeros.mpr hdrop), and_iff_left hdrop, Option.some.injEq,
      Bytes.ofNat_toNatLE_eq_iff (by simp)]
  · rw [if_neg (mt hzeros.mp hdrop)]
    exact iff_of_false (Option.some_ne_none v).symm fun h => hdrop h.2

variable {C : KeyGroup} [KeyGroup.ScalarAction C]

variable (C) in
/-- The fields that are written are those of a masked amount. -/
structure Masks (masked : MaskedAmount) (mask : C.Scalar) (amount : UInt64) (secret : Key) :
    Prop where
  mask_eq : masked.mask = (encode C mask amount secret).mask
  amount_eq : masked.amount = (encode C mask amount secret).amount

section

variable (hscalar : ∀ k a, C.scalar? k = some a ↔ k = C.scalarKey a)
  (hkey : ∀ a : C.Scalar, (C.scalarKey a).toList = Bytes.ofNatLE 32 (residue a).val)
  (horder : 2 ^ 64 ≤ order C)
include hscalar hkey horder

theorem amountOfKey?_scalarKey {a : C.Scalar} {v : UInt64} :
    amountOfKey? (C.scalarKey a) = some v ↔ a = C.scalarOfAmount v := by
  have hinjective : ∀ b, C.scalarKey a = C.scalarKey b ↔ a = b := by
    intro b
    rw [← hscalar, (hscalar _ _).mpr rfl, Option.some.injEq]
  have hbytes : (C.scalarKey (C.scalarOfAmount v)).toList = Bytes.ofNatLE 32 v.toNat := by
    rw [hkey, val_residue_ofAmount horder]
  rw [amountOfKey?_eq_some_iff, ← hbytes, ← hinjective]
  exact ⟨Tuple.toList_inj, congrArg Tuple.toList⟩

theorem decode_eq_ok_iff {masked : MaskedAmount} {secret : Key} {amount : UInt64} {mask : C.Scalar} :
    masked.decode C secret = .ok (amount, mask) ↔ masked.Masks C mask amount secret := by
  have hmasks : masked.Masks C mask amount secret ↔
      C.scalar? masked.mask = some (C.scalarAdd mask (maskOffset C secret)) ∧
        C.scalar? masked.amount =
          some (C.scalarAdd (C.scalarOfAmount amount) (amountOffset C secret)) := by
    rw [hscalar, hscalar]
    exact ⟨fun h => ⟨h.mask_eq, h.amount_eq⟩, fun h => ⟨h.1, h.2⟩⟩
  rw [hmasks, decode]
  cases C.scalar? masked.mask with
  | none => simp
  | some x =>
    cases C.scalar? masked.amount with
    | none => simp
    | some y =>
      simp only [Option.some.injEq, ← scalarSub_eq_iff]
      rw [← amountOfKey?_scalarKey hscalar hkey horder]
      cases amountOfKey? (C.scalarKey (C.scalarSub y (amountOffset C secret))) with
      | none => simp
      | some v => simp [and_comm]

end

end MaskedAmount
end ConfidentialTx
