import ConfidentialTx.Proofs.Wire.Cursor
import ConfidentialTx.Proofs.Wire.Varint
import ConfidentialTx.Wire.Words
import Mathlib.Data.Nat.Bitwise

/-! Variable-length integers in words are those in numbers of any size: every group is moved to where no
bit is set yet, by less than the bits of a word, and none of its own bits is lost. -/
namespace ConfidentialTx.Wire

namespace Varint

theorem toNat_groupWord (b : UInt8) : (groupWord b).toNat = group b := by
  rw [groupWord, UInt8.toNat_toUInt64, UInt8.toNat_and]
  exact Nat.and_two_pow_sub_one_eq_mod b.toNat 7

theorem and_highBit_eq_zero_iff (b : UInt8) : b &&& 0x80 = 0 ↔ ¬ continues b = true := by
  have hb := b.toNat_lt
  have hand : (b &&& 0x80).toNat = (b.toNat.testBit 7).toNat * 2 ^ 7 := Nat.and_two_pow b.toNat 7
  have htop : b.toNat.testBit 7 = decide (b.toNat / 2 ^ 7 % 2 = 1) :=
    Nat.testBit_eq_decide_div_mod_eq
  have hzero : (0 : UInt8).toNat = 0 := rfl
  rw [← UInt8.toNat_inj, hand, htop, hzero, continues, decide_eq_true_eq]
  by_cases h : b.toNat / 2 ^ 7 % 2 = 1
  · simp only [h, decide_true, Bool.toNat_true]
    omega
  · simp only [h, decide_false, Bool.toNat_false]
    omega

theorem or_highBit (v : UInt64) :
    v.toUInt8 &&& 0x7f ||| 0x80 = UInt8.ofNat (v.toNat % 128 + 128) := by
  have hlow : (v.toUInt8 &&& 0x7f).toNat = v.toNat % 128 := by
    rw [UInt8.toNat_and, UInt64.toNat_toUInt8]
    exact (Nat.and_two_pow_sub_one_eq_mod _ 7).trans (Nat.mod_mod_of_dvd _ (by decide))
  have hlt : v.toNat % 128 < 2 ^ 7 := Nat.mod_lt _ (by decide)
  have hor : (0x80 : UInt8).toNat ||| v.toNat % 128 = 128 + v.toNat % 128 := by
    have hdisjoint := Nat.two_pow_add_eq_or_of_lt hlt 1
    rw [Nat.mul_one] at hdisjoint
    exact hdisjoint.symm
  rw [← UInt8.toNat_inj, UInt8.toNat_or, hlow, Nat.or_comm, hor, toNat_ofNat_of_lt (by omega),
    Nat.add_comm]

theorem encodeWord_eq (v : UInt64) : encodeWord v = encode v.toNat := by
  have hshift : (v >>> 7).toNat = v.toNat / 128 := by
    rw [UInt64.toNat_shiftRight]
    exact Nat.shiftRight_eq_div_pow _ 7
  have hle : (0x80 : UInt64) ≤ v ↔ 128 ≤ v.toNat := UInt64.le_iff_toNat_le
  rw [encodeWord]
  by_cases h : 128 ≤ v.toNat
  · rw [if_pos (hle.mpr h), encodeWord_eq (v >>> 7), hshift, or_highBit, encode_of_le h]
  · have hlast : v.toUInt8 = UInt8.ofNat v.toNat := by simp
    rw [if_neg (mt hle.mp h), encode_of_lt (Nat.lt_of_not_le h), hlast]
termination_by v.toNat
decreasing_by
  rw [hshift]
  omega

/-- A group is put above the bits that are there, if none of its own would be moved out. -/
theorem exists_shiftLeft? {g value : UInt64} {shift : ℕ} (hshift : shift < 64)
    (hvalue : value.toNat < 2 ^ shift) (hfits : g.toNat * 2 ^ shift < 2 ^ 64) :
    ∃ placed, shiftLeft? g shift = some placed ∧
      (value ||| placed).toNat = value.toNat + g.toNat <<< shift := by
  have hamount : (UInt64.ofNat shift).toNat = shift :=
    UInt64.toNat_ofNat_of_lt' (hshift.trans (by decide))
  refine ⟨_, if_pos hshift, ?_⟩
  rw [UInt64.toNat_or, UInt64.toNat_shiftLeft, hamount, Nat.mod_eq_of_lt hshift, Nat.shiftLeft_eq,
    Nat.mod_eq_of_lt hfits, Nat.or_comm, Nat.mul_comm, ← Nat.two_pow_add_eq_or_of_lt hvalue,
    Nat.add_comm]

end Varint

namespace Scan

open Varint

theorem wordGroups_eq (field : String) {i : ℕ} {value : UInt64} (hi : i ≤ 10)
    (hvalue : value.toNat < 2 ^ (7 * i)) :
    wordGroups field (7 * i) value = groups field i value.toNat := by
  rw [wordGroups, groups]
  refine congrArg (bind (byte field)) (funext fun b => ?_)
  have hg := group_lt b
  have hone : (1 : UInt64) < groupWord b ↔ 1 < group b := by
    rw [UInt64.lt_iff_toNat_lt, toNat_groupWord]
    rfl
  have hzero : groupWord b = 0 ↔ group b = 0 := by
    rw [← UInt64.toNat_inj, toNat_groupWord]
    rfl
  have hover : (63 < 7 * i ∨ (7 * i = 63 ∧ 1 < groupWord b)) ↔
      (9 < i ∨ (i = 9 ∧ 1 < group b)) := by
    rw [hone]
    omega
  have hpos : 0 < 7 * i ↔ 0 < i := by omega
  simp only [hover, hzero, hpos, and_highBit_eq_zero_iff]
  by_cases hrefused : 9 < i ∨ (i = 9 ∧ 1 < group b)
  · rw [if_pos hrefused, if_pos hrefused]
  have hroom : group b * 2 ^ (7 * i) < 2 ^ 64 := by
    have hlt := Nat.mul_lt_mul_of_pos_right (lt_room hg hrefused) (Nat.two_pow_pos (7 * i))
    rwa [room, ← Nat.pow_add, Nat.sub_add_cancel (by omega)] at hlt
  obtain ⟨placed, hplaced, hsum⟩ :=
    exists_shiftLeft? (by omega) hvalue ((toNat_groupWord b).symm ▸ hroom)
  rw [toNat_groupWord] at hsum
  rw [if_neg hrefused, if_neg hrefused, hplaced, ofOption_some_bind]
  by_cases hc : continues b = true
  · have hbelow : (value ||| placed).toNat < 2 ^ (7 * (i + 1)) := by
      have hstep : 2 ^ (7 * (i + 1)) = 128 * 2 ^ (7 * i) := by
        rw [Nat.mul_succ, Nat.pow_add, Nat.mul_comm]
      have hgroup : group b * 2 ^ (7 * i) ≤ 127 * 2 ^ (7 * i) :=
        Nat.mul_le_mul_right _ (Nat.le_of_lt_succ hg)
      rw [hsum, hstep, Nat.shiftLeft_eq]
      omega
    rw [if_neg (not_not_intro hc), if_pos hc, ← hsum]
    exact wordGroups_eq field (by omega) hbelow
  · rw [if_pos hc, if_neg hc, ← hsum, UInt64.ofNat_toNat]
termination_by 10 - i

theorem wordVarint_eq (field : String) : wordVarint field = varint field :=
  wordGroups_eq field (Nat.zero_le _) (by decide)

end Scan
end ConfidentialTx.Wire
