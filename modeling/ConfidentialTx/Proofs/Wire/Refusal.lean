import ConfidentialTx.Proofs.Wire.Stability
import ConfidentialTx.Proofs.Wire.Words

/-! What becomes of a variable-length integer, for all bytes that there may be. It is read where the bytes
begin with an encoding, and otherwise refused for one of three causes, of which the first byte that is
not followed by another group, or the first one too many, decides. -/
namespace ConfidentialTx.Wire

namespace Varint

theorem length_encode_le_iff {n k : ℕ} (hk : 1 ≤ k) : (encode n).length ≤ k ↔ n < 128 ^ k := by
  induction k, hk using Nat.le_induction generalizing n with
  | base =>
    by_cases h : 128 ≤ n
    · have hpos := List.length_pos_iff.mpr (encode_ne_nil (n / 128))
      rw [encode_of_le h, List.length_cons]
      omega
    · rw [encode_of_lt (Nat.lt_of_not_le h), List.length_singleton]
      omega
  | succ k hk ih =>
    have hpow : 128 ^ (k + 1) = 128 ^ k * 128 := Nat.pow_succ _ _
    have hpos : 0 < 128 ^ k := Nat.pow_pos (by decide)
    by_cases h : 128 ≤ n
    · rw [encode_of_le h, List.length_cons, Nat.succ_le_succ_iff, ih, hpow,
        Nat.div_lt_iff_lt_mul (by decide)]
    · rw [encode_of_lt (Nat.lt_of_not_le h), List.length_singleton, hpow]
      omega

theorem length_encode_toNat_le (v : UInt64) : (encode v.toNat).length ≤ 10 := by
  rw [length_encode_le_iff (by decide)]
  exact v.toNat_lt.trans (by decide)

/-- There is no room for byte `b` as group number `i`. -/
def TooLarge (i : ℕ) (b : UInt8) : Prop := 9 < i ∨ (i = 9 ∧ 1 < group b)

/-- Another group follows each of the first `j` bytes, and `b` is the next one. -/
def Reaches (bytes : List UInt8) (j : ℕ) (b : UInt8) : Prop :=
  bytes[j]? = some b ∧ ∀ c ∈ bytes.take j, continues c = true

theorem not_reaches_nil {j : ℕ} {b : UInt8} : ¬ Reaches [] j b := by
  rintro ⟨h, -⟩
  cases h

theorem reaches_cons_iff {a b : UInt8} {rest : List UInt8} {j : ℕ} :
    Reaches (a :: rest) j b ↔
      (j = 0 ∧ a = b) ∨ ∃ k, j = k + 1 ∧ continues a = true ∧ Reaches rest k b := by
  cases j with
  | zero => simp [Reaches]
  | succ j => simp [Reaches, and_left_comm]

theorem exists_reaches_cons_iff {P : ℕ → UInt8 → Prop} {a : UInt8} {rest : List UInt8} {i : ℕ} :
    (∃ j b, Reaches (a :: rest) j b ∧ P (i + j) b) ↔
      P i a ∨ (continues a = true ∧ ∃ j b, Reaches rest j b ∧ P (i + 1 + j) b) := by
  simp only [reaches_cons_iff]
  constructor
  · rintro ⟨j, b, ⟨rfl, rfl⟩ | ⟨k, rfl, hc, hk⟩, hP⟩
    · exact .inl hP
    · exact .inr ⟨hc, k, b, hk, by rwa [Nat.add_assoc, Nat.add_comm 1]⟩
  · rintro (hP | ⟨hc, k, b, hk, hP⟩)
    · exact ⟨0, a, .inl ⟨rfl, rfl⟩, hP⟩
    · exact ⟨k + 1, b, .inr ⟨k, rfl, hc, hk⟩, by rwa [Nat.add_comm k, ← Nat.add_assoc]⟩

theorem eq_zero_iff {b : UInt8} : b = 0 ↔ group b = 0 ∧ ¬ continues b = true := by
  constructor
  · rintro rfl
    decide
  · rintro ⟨hg, hc⟩
    exact eq_of_group hg (Bool.eq_false_iff.mpr hc)

end Varint

namespace Parser

open Varint

variable {field : String} {i value position : ℕ} {bytes : List UInt8}

theorem groups_eq_overflow_iff :
    (groups field i value position bytes).1 = .error (.overflow field) ↔
      ∃ j b, Reaches bytes j b ∧ TooLarge (i + j) b := by
  induction bytes generalizing i value position with
  | nil => simp [groups, not_reaches_nil]
  | cons a rest ih =>
    rw [exists_reaches_cons_iff]
    simp only [groups]
    split
    · rename_i hlarge
      exact iff_of_true rfl (.inl hlarge)
    rename_i hfits
    have hfits' : ¬ TooLarge i a := hfits
    split
    · rename_i hc
      rw [ih]
      simp only [hfits', hc, false_or, true_and]
    rename_i hc
    split <;> simp [hfits', hc]

theorem groups_eq_nonMinimalVarint_iff :
    (groups field i value position bytes).1 = .error .nonMinimalVarint ↔
      ∃ j b, Reaches bytes j b ∧ b = 0 ∧ 0 < i + j ∧ i + j ≤ 9 := by
  induction bytes generalizing i value position with
  | nil => simp [groups, not_reaches_nil]
  | cons a rest ih =>
    rw [exists_reaches_cons_iff (P := fun k b => b = 0 ∧ 0 < k ∧ k ≤ 9), eq_zero_iff]
    simp only [groups]
    split
    · rename_i hlarge
      refine iff_of_false (by simp) ?_
      rintro (⟨⟨hg, -⟩, -, hi⟩ | ⟨-, j, b, -, -, -, hi⟩) <;> omega
    rename_i hfits
    split
    · rename_i hc
      rw [ih]
      simp only [hc, not_true, and_false, false_and, false_or, true_and]
    rename_i hc
    split
    · rename_i hzero
      exact iff_of_true rfl (.inl ⟨⟨hzero.1, hc⟩, hzero.2, by omega⟩)
    · rename_i hzero
      refine iff_of_false (by simp) ?_
      rintro (⟨⟨hg, -⟩, hi, -⟩ | ⟨hc', -⟩)
      · exact hzero ⟨hg, hi⟩
      · exact hc hc'

theorem groups_eq_truncated_iff :
    (groups field i value position bytes).1 = .error (.truncated field) ↔
      ∀ j b, bytes[j]? = some b → continues b = true ∧ ¬ TooLarge (i + j) b := by
  induction bytes generalizing i value position with
  | nil => simp [groups]
  | cons a rest ih =>
    simp only [groups]
    split
    · rename_i hlarge
      refine iff_of_false (by simp) fun h => (h 0 a rfl).2 hlarge
    rename_i hfits
    split
    · rename_i hc
      rw [ih]
      constructor
      · rintro h (_ | j) b hb
        · cases hb
          exact ⟨hc, hfits⟩
        · have hrest := h j b hb
          rwa [Nat.add_assoc, Nat.add_comm 1] at hrest
      · intro h j b hb
        have hrest := h (j + 1) b hb
        rwa [Nat.add_comm j, ← Nat.add_assoc] at hrest
    rename_i hc
    have hfirst : ¬ ∀ j b, (a :: rest)[j]? = some b → continues b = true ∧ ¬ TooLarge (i + j) b :=
      fun h => hc (h 0 a rfl).1
    split <;> simp [hfirst]

theorem cause_of_groups {e : Error} (h : (groups field i value position bytes).1 = .error e) :
    e = .truncated field ∨ e = .nonMinimalVarint ∨ e = .overflow field := by
  induction bytes generalizing i value position with
  | nil =>
    cases h
    exact .inl rfl
  | cons a rest ih =>
    simp only [groups] at h
    split at h
    · cases h
      exact .inr (.inr rfl)
    split at h
    · exact ih h
    split at h
    · cases h
      exact .inr (.inl rfl)
    · cases h

theorem exists_passed_groups (hi : i ≤ 10) :
    ∃ n ≤ bytes.length, i + n ≤ 11 ∧
      (groups field i value position bytes).2 = ⟨position + n, bytes.drop n⟩ := by
  induction bytes generalizing i value position with
  | nil => exact ⟨0, Nat.le_refl 0, by omega, rfl⟩
  | cons a rest ih =>
    have hone : ∃ n ≤ (a :: rest).length, i + n ≤ 11 ∧
        (⟨position + 1, rest⟩ : Reader) = ⟨position + n, (a :: rest).drop n⟩ :=
      ⟨1, Nat.le_add_left 1 _, by omega, rfl⟩
    simp only [groups]
    split
    · exact hone
    rename_i hfits
    split
    · have hnext : i + 1 ≤ 10 := by omega
      obtain ⟨n, hn, hle, hpassed⟩ :=
        @ih (i + 1) (value + group a <<< (7 * i)) (position + 1) hnext
      refine ⟨n + 1, Nat.succ_le_succ hn, by omega, ?_⟩
      rw [hpassed, List.drop_succ_cons, Nat.add_assoc, Nat.add_comm 1]
    split
    · exact hone
    · exact hone

theorem exists_passed_varint (field : String) (r : Reader) :
    ∃ n ≤ r.remaining, n ≤ 11 ∧ (varint field r).2 = ⟨r.position + n, r.rest.drop n⟩ := by
  obtain ⟨n, hn, hle, hpassed⟩ : ∃ n ≤ r.rest.length, 0 + n ≤ 11 ∧
      (groups field 0 0 r.position r.rest).2 = ⟨r.position + n, r.rest.drop n⟩ :=
    exists_passed_groups (Nat.zero_le 10)
  exact ⟨n, hn, by omega, hpassed⟩

theorem varint_eq_truncated_iff {r : Reader} :
    (varint field r).1 = .error (.truncated field) ↔
      (∀ b ∈ r.rest, continues b = true) ∧ r.rest.length ≤ 10 ∧
        ∀ b, r.rest[9]? = some b → group b ≤ 1 := by
  rw [varint, groups_eq_truncated_iff]
  simp only [TooLarge, Nat.zero_add]
  constructor
  · intro h
    refine ⟨fun b hb => ?_, ?_, fun b hb => ?_⟩
    · obtain ⟨j, hj⟩ := List.mem_iff_getElem?.mp hb
      exact (h j b hj).1
    · by_contra hlength
      have heleventh := List.getElem?_eq_getElem (l := r.rest) (i := 10) (by omega)
      exact (h 10 _ heleventh).2 (.inl (by decide))
    · by_contra hlarge
      exact (h 9 b hb).2 (.inr ⟨rfl, Nat.lt_of_not_le hlarge⟩)
  · rintro ⟨hall, hlength, htenth⟩ j b hb
    refine ⟨hall b (List.mem_of_getElem? hb), ?_⟩
    have hj := (List.getElem?_eq_some_iff.mp hb).1
    rintro (hlarge | ⟨rfl, hlarge⟩)
    · omega
    · exact Nat.not_le_of_lt hlarge (htenth b hb)

theorem varint_eq_nonMinimalVarint_iff {r : Reader} :
    (varint field r).1 = .error .nonMinimalVarint ↔
      ∃ j, 1 ≤ j ∧ j ≤ 9 ∧ r.rest[j]? = some 0 ∧ ∀ c ∈ r.rest.take j, continues c = true := by
  rw [varint, groups_eq_nonMinimalVarint_iff]
  simp only [Nat.zero_add]
  constructor
  · rintro ⟨j, b, ⟨hb, hbefore⟩, rfl, hpos, hle⟩
    exact ⟨j, hpos, hle, hb, hbefore⟩
  · rintro ⟨j, hpos, hle, hb, hbefore⟩
    exact ⟨j, 0, ⟨hb, hbefore⟩, rfl, hpos, hle⟩

theorem varint_eq_overflow_iff {r : Reader} :
    (varint field r).1 = .error (.overflow field) ↔
      (∀ c ∈ r.rest.take 9, continues c = true) ∧
        ∃ b, r.rest[9]? = some b ∧ (1 < group b ∨ (continues b = true ∧ 11 ≤ r.rest.length)) := by
  rw [varint, groups_eq_overflow_iff]
  simp only [TooLarge, Nat.zero_add]
  constructor
  · rintro ⟨j, b, ⟨hb, hbefore⟩, hj | ⟨rfl, hlarge⟩⟩
    · -- The tenth byte lies before the one that is too many.
      have hlength := (List.getElem?_eq_some_iff.mp hb).1
      have htenth := List.getElem?_eq_getElem (l := r.rest) (i := 9) (by omega)
      have hmem : r.rest[9] ∈ r.rest.take j :=
        List.mem_of_getElem? ((List.getElem?_take_of_lt hj).trans htenth)
      refine ⟨fun c hc => hbefore c ?_, _, htenth, .inr ⟨hbefore _ hmem, by omega⟩⟩
      exact List.take_subset_take_left _ (by omega) hc
    · exact ⟨hbefore, b, hb, .inl hlarge⟩
  · rintro ⟨hbefore, b, hb, hlarge | ⟨hc, hlength⟩⟩
    · exact ⟨9, b, ⟨hb, hbefore⟩, .inr ⟨rfl, hlarge⟩⟩
    · refine ⟨10, _, ⟨List.getElem?_eq_getElem hlength, ?_⟩, .inl (by decide)⟩
      rw [List.take_add_one, hb]
      exact List.forall_mem_append.mpr ⟨hbefore, by simpa using hc⟩

theorem decode_eq_ok_iff {bytes : List UInt8} {v : UInt64} :
    decode bytes = .ok v ↔ bytes = encode v.toNat := by
  rw [decode, run_eq_ok_iff]
  simp only [bind_eq_ok_iff, varint_reads _ _ _ _, finish_eq_ok_iff, pure_eq_ok_iff, true_and]
  constructor
  · rintro ⟨_, _, m, ⟨hrest, -⟩, _, _, ⟨hend, -⟩, rfl, -⟩
    rwa [hend, List.append_nil] at hrest
  · rintro rfl
    have hpasses : (Reader.ofBytes (encode v.toNat)).Passes (encode v.toNat)
        ⟨(encode v.toNat).length, []⟩ :=
      ⟨(List.append_nil _).symm, (Nat.zero_add _).symm⟩
    exact ⟨_, v, _, hpasses, (), _, ⟨rfl, rfl⟩, rfl, rfl⟩

/-- A variable-length integer is read exactly where the bytes begin with the encoding of one, which is
passed and takes ten bytes at most. Otherwise the bytes end while each of them announces another group,
or the last group is zero and not the only one, or there are more bits than a word has; which of these
it is, is told by the bytes themselves. No more than eleven bytes are passed. In words of 64 bits, no
group is moved out of the word, and the encodings and all outcomes are the same. -/
theorem varint_outcome (field : String) :
    (∀ r v r', varint field r = (.ok v, r') ↔ r.Passes (encode v.toNat) r') ∧
    (∀ r v, (∃ r', varint field r = (.ok v, r')) ↔ encode v.toNat <+: r.rest) ∧
    (∀ v : UInt64, (encode v.toNat).length ≤ 10) ∧
    (∀ bytes v, decode bytes = .ok v ↔ bytes = encode v.toNat) ∧
    (∀ r, (varint field r).1 = .error (.truncated field) ↔
      (∀ b ∈ r.rest, continues b = true) ∧ r.rest.length ≤ 10 ∧
        ∀ b, r.rest[9]? = some b → group b ≤ 1) ∧
    (∀ r, (varint field r).1 = .error .nonMinimalVarint ↔
      ∃ j, 1 ≤ j ∧ j ≤ 9 ∧ r.rest[j]? = some 0 ∧ ∀ c ∈ r.rest.take j, continues c = true) ∧
    (∀ r, (varint field r).1 = .error (.overflow field) ↔
      (∀ c ∈ r.rest.take 9, continues c = true) ∧
        ∃ b, r.rest[9]? = some b ∧ (1 < group b ∨ (continues b = true ∧ 11 ≤ r.rest.length))) ∧
    (∀ r e, (varint field r).1 = .error e →
      e = .truncated field ∨ e = .nonMinimalVarint ∨ e = .overflow field) ∧
    (∀ r, ∃ n ≤ r.remaining, n ≤ 11 ∧ (varint field r).2 = ⟨r.position + n, r.rest.drop n⟩) ∧
    (∀ v, encodeWord v = encode v.toNat) ∧
    (Scan.wordVarint field).Follows (varint field) := by
  have hreads : ∀ r v r', varint field r = (.ok v, r') ↔ r.Passes (encode v.toNat) r' := by
    intro r v r'
    rw [varint_reads, true_and]
  refine ⟨hreads, ?_, length_encode_toNat_le, fun _ _ => decode_eq_ok_iff,
    fun _ => varint_eq_truncated_iff, fun _ => varint_eq_nonMinimalVarint_iff,
    fun _ => varint_eq_overflow_iff, fun _ _ => cause_of_groups, exists_passed_varint field,
    encodeWord_eq, ?_⟩
  · intro r v
    simp only [hreads]
    constructor
    · rintro ⟨r', hrest, -⟩
      exact ⟨r'.rest, hrest.symm⟩
    · rintro ⟨rest, hrest⟩
      exact ⟨⟨r.position + (encode v.toNat).length, rest⟩, hrest.symm, rfl⟩
  · rw [Scan.wordVarint_eq]
    exact Scan.follows_varint field

end Parser
end ConfidentialTx.Wire
