import ConfidentialTx.Base58
import ConfidentialTx.Proofs.Outcome
import Mathlib.Data.List.GetD
import Mathlib.Data.List.Induction
import Mathlib.Tactic.Ring

/-! One block of base 58. A number of digits that is fixed has one numeral for each number, and there
are enough digits for the bytes of the block, so the characters of a block and its bytes say the same. -/
namespace ConfidentialTx.Base58

/-- The number whose digits, most significant first, are those of `n` and then `ds`. -/
def valueFrom (n : ℕ) (ds : List ℕ) : ℕ := ds.foldl (fun n d => n * 58 + d) n

@[simp] theorem valueFrom_nil (n : ℕ) : valueFrom n [] = n := rfl

@[simp] theorem valueFrom_cons (n d : ℕ) (ds : List ℕ) :
    valueFrom n (d :: ds) = valueFrom (n * 58 + d) ds := rfl

@[simp] theorem valueFrom_concat (n d : ℕ) (ds : List ℕ) :
    valueFrom n (ds ++ [d]) = valueFrom n ds * 58 + d := by
  simp [valueFrom]

theorem le_valueFrom (n : ℕ) (ds : List ℕ) : n ≤ valueFrom n ds := by
  induction ds generalizing n with
  | nil => exact le_rfl
  | cons d ds ih =>
    have hstep : n ≤ n * 58 + d := by omega
    exact hstep.trans (ih _)

theorem valueFrom_digits (n w m : ℕ) : valueFrom n (digits w m) = n * 58 ^ w + m % 58 ^ w := by
  induction w generalizing m with
  | zero => simp [digits, Nat.mod_one]
  | succ w ih =>
    rw [digits, valueFrom_concat, ih, pow_succ', Nat.mod_mul]
    ring

theorem digits_valueFrom {ds : List ℕ} (h : ∀ d ∈ ds, d < 58) (n : ℕ) :
    digits ds.length (valueFrom n ds) = ds := by
  induction ds using List.reverseRecOn with
  | nil => rfl
  | append_singleton ds d ih =>
    have hd : d < 58 := h d (by simp)
    have hds : digits ds.length (valueFrom n ds) = ds := ih fun d' hd' => h d' (by simp [hd'])
    have hdiv : (valueFrom n ds * 58 + d) / 58 = valueFrom n ds := by omega
    have hmod : (valueFrom n ds * 58 + d) % 58 = d := by omega
    rw [List.length_append, List.length_singleton, valueFrom_concat, digits, hdiv, hmod, hds]

theorem digits_lt {w n d : ℕ} (h : d ∈ digits w n) : d < 58 := by
  induction w generalizing n with
  | zero => cases h
  | succ w ih =>
    rcases List.mem_append.mp h with h | h
    · exact ih h
    · rw [List.mem_singleton.mp h]
      exact Nat.mod_lt _ (by decide)

def symbolByte (d : ℕ) : UInt8 := .ofNat (symbol d).toNat

theorem digit?_eq_some_iff {c : UInt8} {d : ℕ} :
    digit? c = some d ↔ d < 58 ∧ symbolByte d = c := by
  constructor
  · intro h
    obtain ⟨hd, hc, -⟩ := List.findIdx?_eq_some_iff_getElem.mp h
    refine ⟨hd, ?_⟩
    rw [symbolByte, symbol, List.getD_eq_getElem _ _ hd, of_decide_eq_true hc, UInt8.ofNat_toNat]
  · rintro ⟨hd, rfl⟩
    revert d
    decide

theorem forall₂_digit?_iff {chars : List UInt8} {ds : List ℕ} :
    List.Forall₂ (fun c d => digit? c = some d) chars ds ↔
      (∀ d ∈ ds, d < 58) ∧ ds.map symbolByte = chars :=
  forall₂_iff_map (P := fun d => d < 58) fun _ _ => digit?_eq_some_iff

theorem blockValue_eq_ok_iff {n : ℕ} (hn : n < UInt64.size) {chars : List UInt8} {m : ℕ} :
    blockValue n chars = .ok m ↔
      ∃ ds, List.Forall₂ (fun c d => digit? c = some d) chars ds ∧ valueFrom n ds = m ∧
        m < UInt64.size := by
  induction chars generalizing n with
  | nil =>
    simp only [blockValue, Except.ok.injEq, List.forall₂_nil_left_iff, exists_eq_left, valueFrom_nil]
    exact ⟨fun h => ⟨h, h ▸ hn⟩, And.left⟩
  | cons c cs ih =>
    simp only [blockValue, List.forall₂_cons_left_iff]
    cases digit? c with
    | none => simp
    | some d =>
      by_cases hsmall : n * 58 + d < UInt64.size
      · simp [hsmall, ih hsmall]
      · -- The number only grows with the digits that follow.
        simp only [hsmall, if_false, reduceCtorEq, Option.some.injEq, false_iff]
        rintro ⟨_, ⟨_, ds, rfl, -, rfl⟩, rfl, hm⟩
        exact hsmall ((le_valueFrom _ ds).trans_lt hm)

theorem blockLength?_eq_some_iff {chars len : ℕ} :
    blockLength? chars = some len ↔ len ≤ 8 ∧ width len = chars := by
  constructor
  · intro h
    obtain ⟨hlen, hchars, -⟩ := List.findIdx?_eq_some_iff_getElem.mp h
    exact ⟨Nat.le_of_lt_succ hlen,
      (List.getD_eq_getElem _ _ hlen).trans (of_decide_eq_true hchars)⟩
  · rintro ⟨hlen, rfl⟩
    revert len
    decide

/-- Every block of so many bytes has a numeral of the width for it. -/
theorem bound_le_pow_width : ∀ len ≤ 8, Bytes.bound len ≤ 58 ^ width len := by decide

theorem bound_le_size : ∀ len ≤ 8, Bytes.bound len ≤ UInt64.size := by decide

def encodeBlockBytes (block : List UInt8) : List UInt8 :=
  (encodeBlock block).map fun c => .ofNat c.toNat

theorem encodeBlockBytes_eq (block : List UInt8) : encodeBlockBytes block =
    (digits (width block.length) (Bytes.toNatBE block)).map symbolByte := by
  rw [encodeBlockBytes, encodeBlock, List.map_map]
  rfl

@[simp] theorem length_encodeBlock (block : List UInt8) :
    (encodeBlock block).length = width block.length := by
  simp [encodeBlock]

@[simp] theorem length_encodeBlockBytes (block : List UInt8) :
    (encodeBlockBytes block).length = width block.length := by
  simp [encodeBlockBytes]

theorem decodeBlock_eq_ok_iff {chars block : List UInt8} :
    decodeBlock chars = .ok block ↔ block.length ≤ 8 ∧ encodeBlockBytes block = chars := by
  rw [encodeBlockBytes_eq]
  constructor
  · intro h
    rw [decodeBlock] at h
    cases hwidth : blockLength? chars.length with
    | none => simp [hwidth] at h
    | some len =>
      obtain ⟨hlen, hchars⟩ := blockLength?_eq_some_iff.mp hwidth
      simp only [hwidth, Except.bind_eq_ok_iff] at h
      obtain ⟨n, hn, h⟩ := h
      obtain ⟨ds, hds, rfl, -⟩ := (blockValue_eq_ok_iff (by decide)).mp hn
      obtain ⟨hsmall, rfl⟩ := forall₂_digit?_iff.mp hds
      split at h
      case isFalse => cases h
      case isTrue hbound =>
        cases h
        rw [Bytes.length_ofNatBE, Bytes.toNatBE_ofNatBE, Nat.mod_eq_of_lt hbound, hchars,
          List.length_map, digits_valueFrom hsmall]
        exact ⟨hlen, rfl⟩
  · rintro ⟨hlen, rfl⟩
    have hbound := Bytes.toNatBE_lt block
    have hvalue : valueFrom 0 (digits (width block.length) (Bytes.toNatBE block)) =
        Bytes.toNatBE block := by
      rw [valueFrom_digits, Nat.zero_mul, Nat.zero_add, Nat.mod_eq_of_lt]
      exact hbound.trans_le (bound_le_pow_width _ hlen)
    have hread : blockValue 0 ((digits (width block.length) (Bytes.toNatBE block)).map symbolByte) =
        .ok (Bytes.toNatBE block) :=
      (blockValue_eq_ok_iff (by decide)).mpr
        ⟨_, forall₂_digit?_iff.mpr ⟨fun _ => digits_lt, rfl⟩, hvalue,
          hbound.trans_le (bound_le_size _ hlen)⟩
    have hwidth : blockLength? (width block.length) = some block.length :=
      blockLength?_eq_some_iff.mpr ⟨hlen, rfl⟩
    rw [decodeBlock, List.length_map, length_digits, hwidth, hread]
    simp [bind, Except.bind, hbound, pure, Except.pure]

end ConfidentialTx.Base58
