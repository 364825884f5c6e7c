import ConfidentialTx.Proofs.Wire.Reading
import Mathlib.Algebra.Order.Ring.Nat
import Mathlib.Tactic.Ring

/-! Variable-length integers and counted lists. Every number below `2 ^ 64` has one encoding that
is accepted, the shortest one; the check that the items of a list can be among the bytes left
never refuses a list that is there. -/
namespace ConfidentialTx.Wire

open Reader

namespace Varint

theorem toNat_ofNat_of_lt {n : Nat} (h : n < 256) : (UInt8.ofNat n).toNat = n := by
  simp [Nat.mod_eq_of_lt h]

theorem encode_eq_cons (n : Nat) :
    ∃ b bytes, encode n = b :: bytes ∧ group b = n % 128 ∧
      (continues b = true ↔ 128 ≤ n) ∧
      bytes = if 128 ≤ n then encode (n / 128) else [] := by
  by_cases h : 128 ≤ n
  · refine ⟨_, _, encode_of_le h, ?_, ?_, (if_pos h).symm⟩
    · simp only [group, toNat_ofNat_of_lt (by omega : n % 128 + 128 < 256)]
      omega
    · simp only [continues, toNat_ofNat_of_lt (by omega : n % 128 + 128 < 256), decide_eq_true_eq]
      omega
  · refine ⟨_, _, encode_of_lt (by omega), ?_, ?_, (if_neg h).symm⟩
    · simp only [group, toNat_ofNat_of_lt (by omega : n < 256)]
    · simp only [continues, toNat_ofNat_of_lt (by omega : n < 256), decide_eq_true_eq]

theorem eq_of_group {b c : UInt8} (h₁ : group b = group c) (h₂ : continues b = continues c) :
    b = c := by
  have hb := b.toNat_lt
  have hc := c.toNat_lt
  have h₃ : 128 ≤ b.toNat ↔ 128 ≤ c.toNat := by simpa [continues] using h₂
  simp only [group] at h₁
  apply UInt8.toNat_inj.mp
  omega

theorem group_lt (b : UInt8) : group b < 128 := Nat.mod_lt _ (by decide)

theorem passes_encode_iff {b : UInt8} {rest : List UInt8} {n position : Nat} {r' : Reader} :
    Passes ⟨position, b :: rest⟩ (encode n) r' ↔
      group b = n % 128 ∧ (continues b = true ↔ 128 ≤ n) ∧
        Passes ⟨position + 1, rest⟩ (if 128 ≤ n then encode (n / 128) else []) r' := by
  obtain ⟨c, bytes, hn, hg, hc, hbytes⟩ := encode_eq_cons n
  rw [← hbytes, hn, ← hg, ← hc, Passes, Passes]
  simp only [List.cons_append, List.cons.injEq, List.length_cons]
  constructor
  · rintro ⟨⟨rfl, h₁⟩, h₂⟩
    exact ⟨rfl, Iff.rfl, h₁, by omega⟩
  · rintro ⟨h₁, h₂, h₃, h₄⟩
    exact ⟨⟨eq_of_group h₁ (Bool.eq_iff_iff.mpr h₂), h₃⟩, by omega⟩

/-- The numbers that may stand from group `i` on. -/
def room (i : Nat) : Nat := 2 ^ (64 - 7 * i)

theorem room_of_le {i : Nat} (h : i ≤ 8) : room i = 128 * room (i + 1) := by
  rw [room, room, show 64 - 7 * i = 7 + (64 - 7 * (i + 1)) by omega, Nat.pow_add]

theorem room_nine : room 9 = 2 := rfl

theorem room_of_lt {i : Nat} (h : 9 < i) : room i = 1 := by
  rw [room, Nat.sub_eq_zero_of_le (by omega), Nat.pow_zero]

theorem room_pos (i : Nat) : 0 < room i := Nat.two_pow_pos _

theorem not_overflow {i n : Nat} (hn : n < room i) (h₀ : 0 < i → n ≠ 0) :
    ¬(9 < i ∨ (i = 9 ∧ 1 < n % 128)) := by
  rintro (hi | ⟨rfl, hi⟩)
  · rw [room_of_lt hi] at hn
    omega
  · rw [room_nine] at hn
    omega

theorem lt_room {i g : Nat} (hg : g < 128) (h : ¬(9 < i ∨ (i = 9 ∧ 1 < g))) : g < room i := by
  by_cases hi : i ≤ 8
  · rw [room_of_le hi]
    have hpos := room_pos (i + 1)
    omega
  · have hi' : i = 9 := by omega
    rw [hi', room_nine]
    omega

theorem lt_room_succ_iff {i g m : Nat} (hg : g < 128) (hi : i ≤ 9) (hm : m ≠ 0) :
    m < room (i + 1) ↔ g + 128 * m < room i := by
  by_cases hi' : i ≤ 8
  · rw [room_of_le hi']
    omega
  · have hi'' : i = 9 := by omega
    rw [hi'', room_nine, room_of_lt (by decide)]
    omega

theorem shift_add (value g m i : Nat) :
    value + g <<< (7 * i) + m <<< (7 * (i + 1)) = value + (g + 128 * m) <<< (7 * i) := by
  simp only [Nat.shiftLeft_eq, Nat.mul_add, Nat.pow_add]
  ring

end Varint

namespace Parser

open Varint

/-- Reading from group `i` on: the groups are those of a number for which there is room and which
is not zero, unless it is the whole integer. -/
theorem groups_eq_ok_iff {field : String} {i value position : Nat} {bytes : List UInt8}
    {v : UInt64} {r' : Reader} :
    groups field i value position bytes = (.ok v, r') ↔
      ∃ n, n < room i ∧ (0 < i → n ≠ 0) ∧ v = UInt64.ofNat (value + n <<< (7 * i)) ∧
        Passes ⟨position, bytes⟩ (encode n) r' := by
  induction bytes generalizing i value position with
  | nil =>
    simp only [groups, Passes, Prod.mk.injEq, reduceCtorEq, false_and, false_iff]
    rintro ⟨n, -, -, -, h, -⟩
    exact encode_ne_nil n (List.append_eq_nil_iff.mp h.symm).1
  | cons b rest ih =>
    have hb := group_lt b
    simp only [groups, passes_encode_iff]
    split
    · rename_i hover
      simp only [Prod.mk.injEq, reduceCtorEq, false_and, false_iff]
      rintro ⟨n, hn, h₀, -, hg, -⟩
      rw [hg] at hover
      exact not_overflow hn h₀ hover
    rename_i hover
    have hi : i ≤ 9 := by omega
    split
    · rename_i hc
      rw [ih]
      constructor
      · rintro ⟨m, hm, h₀, hv, hp⟩
        have hm₀ := h₀ (by omega)
        have hq : (group b + 128 * m) / 128 = m := by omega
        have hc' : 128 ≤ group b + 128 * m := by omega
        refine ⟨group b + 128 * m, (lt_room_succ_iff hb hi hm₀).mp hm, by omega, ?_, by omega,
          iff_of_true hc hc', ?_⟩
        · rw [hv, shift_add]
        · rwa [if_pos hc', hq]
      · rintro ⟨n, hn, -, hv, hg, hcn, hp⟩
        have hn' := hcn.mp hc
        have hsplit : group b + 128 * (n / 128) = n := by omega
        rw [if_pos hn'] at hp
        have hpos : n / 128 ≠ 0 := by omega
        have hroom := (lt_room_succ_iff hb hi hpos).mpr (by rwa [hsplit])
        refine ⟨n / 128, hroom, by omega, ?_, hp⟩
        rw [hv, shift_add, hsplit]
    · rename_i hc
      split
      · simp only [Prod.mk.injEq, reduceCtorEq, false_and, false_iff]
        rintro ⟨n, -, h₀, -, hg, hcn, -⟩
        have hn' := mt hcn.mpr hc
        omega
      · constructor
        · intro h
          cases h
          have hc' : ¬128 ≤ group b := by omega
          refine ⟨group b, lt_room hb hover, by omega, rfl, by omega, iff_of_false hc hc', ?_⟩
          rw [if_neg hc']
          exact passes_nil_iff.mpr rfl
        · rintro ⟨n, -, h₀, rfl, hg, hcn, hp⟩
          have hn' := mt hcn.mpr hc
          rw [if_neg hn'] at hp
          rw [passes_nil_iff.mp hp, hg, Nat.mod_eq_of_lt (by omega)]

theorem varint_reads (field : String) :
    (varint field).Reads (fun v => encode v.toNat) fun _ => True := by
  intro r v r'
  rw [varint, groups_eq_ok_iff]
  constructor
  · rintro ⟨n, hn, -, rfl, hp⟩
    have hn' : (UInt64.ofNat (0 + n <<< (7 * 0))).toNat = n := by
      simpa [room] using hn
    exact ⟨trivial, by simpa only [hn'] using hp⟩
  · rintro ⟨-, hp⟩
    exact ⟨v.toNat, v.toNat_lt, by omega, by simp, hp⟩

theorem check_eq_ok_iff {field : String} {v limit : UInt64} {n : Nat} :
    Limits.check field v limit = .ok n ↔ n = v.toNat ∧ n ≤ limit.toNat := by
  rw [Limits.check]
  split
  · rename_i h
    simp only [reduceCtorEq, false_iff, not_and, not_le]
    rintro rfl
    exact h
  · rename_i h
    constructor
    · intro hn
      cases hn
      exact ⟨rfl, not_lt.mp h⟩
    · rintro ⟨rfl, -⟩
      rfl

theorem count_eq_ok_iff {field : String} {limit : UInt64} {itemLength n : Nat} {r r' : Reader} :
    count field limit itemLength r = (.ok n, r') ↔
      n ≤ limit.toNat ∧ r.Passes (encode n) r' ∧ saturate (n * itemLength) ≤ r'.remaining := by
  simp only [count, bind_eq_ok_iff, ofExcept_eq_ok_iff, remaining_eq_ok_iff, check_eq_ok_iff,
    varint_reads field _ _ _, true_and]
  constructor
  · rintro ⟨v, m, hp, n', m', ⟨⟨rfl, hn⟩, rfl⟩, left, m'', ⟨rfl, rfl⟩, h⟩
    split at h
    · exact absurd h fail_ne_ok
    · rename_i hleft
      obtain ⟨rfl, rfl⟩ := pure_eq_ok_iff.mp h
      exact ⟨hn, hp, not_lt.mp hleft⟩
  · rintro ⟨hn, hp, hleft⟩
    have hv : (UInt64.ofNat n).toNat = n := by
      simpa using Nat.mod_eq_of_lt (lt_of_le_of_lt hn limit.toNat_lt)
    refine ⟨UInt64.ofNat n, r', by rwa [hv], n, r', ⟨⟨hv.symm, hn⟩, rfl⟩, _, r', ⟨rfl, rfl⟩, ?_⟩
    rw [if_neg (not_lt.mpr hleft)]
    exact pure_eq_ok_iff.mpr ⟨rfl, rfl⟩

def counted {α : Type} (p : Parser α) (field : String) (limit : UInt64) (itemLength : Nat) :
    Parser (List α) := do
  let n ← count field limit itemLength
  p.times n

theorem length_mul_le_flatMap {α : Type} {write : α → List UInt8} {k : Nat} {as : List α}
    (h : ∀ a ∈ as, k ≤ (write a).length) : as.length * k ≤ (as.flatMap write).length := by
  induction as with
  | nil => simp
  | cons a as ih =>
    have h₁ := h a (by simp)
    have h₂ := ih fun b hb => h b (by simp [hb])
    rw [List.flatMap_cons, List.length_append, List.length_cons, Nat.succ_mul]
    omega

/-- If no item takes less than `itemLength` bytes, the lists that are read are those within the
limit: the check of the bytes left refuses none of them. -/
theorem Reads.counted {α : Type} {p : Parser α} {write : α → List UInt8} {P : α → Prop}
    (hp : p.Reads write P) (field : String) (limit : UInt64) {itemLength : Nat}
    (hlength : ∀ a, P a → itemLength ≤ (write a).length) :
    (counted p field limit itemLength).Reads (fun as => encode as.length ++ as.flatMap write)
      fun as => as.length ≤ limit.toNat ∧ ∀ a ∈ as, P a := by
  intro r as r'
  simp only [Parser.counted, bind_eq_ok_iff, count_eq_ok_iff, hp.times _ _ _ _, passes_append_iff]
  constructor
  · rintro ⟨n, m, ⟨hn, h₁, -⟩, ⟨rfl, has⟩, h₂⟩
    exact ⟨⟨hn, has⟩, m, h₁, h₂⟩
  · rintro ⟨⟨hn, has⟩, m, h₁, h₂⟩
    refine ⟨as.length, m, ⟨hn, h₁, ?_⟩, ⟨rfl, has⟩, h₂⟩
    calc saturate (as.length * itemLength) ≤ as.length * itemLength := saturate_le _
      _ ≤ (as.flatMap write).length := length_mul_le_flatMap fun a ha => hlength a (has a ha)
      _ ≤ m.remaining := by rw [h₂.remaining]; exact Nat.le_add_right _ _

end Parser
end ConfidentialTx.Wire
