import ConfidentialTx.Proofs.Base58.Block

/-! Texts of base 58. Where a text is cut into blocks depends on its length only, and so does where the
bytes are cut, hence a text is decoded to some bytes if and only if it is their encoding. -/
namespace ConfidentialTx.Base58

variable {α : Type}

theorem toList_eq_data (bytes : ByteArray) : bytes.toList = bytes.data.toList := by
  have hloop : ∀ i r, ByteArray.toList.loop bytes i r = r.reverse ++ bytes.data.toList.drop i := by
    intro i r
    fun_induction ByteArray.toList.loop bytes i r with
    | case1 i r hi ih =>
      have hlist : i < bytes.data.toList.length := hi
      have hget : bytes.get! i = bytes.data.toList[i] := getElem!_pos bytes.data i hi
      rw [ih, List.drop_eq_getElem_cons hlist, hget, List.reverse_cons, List.append_assoc,
        List.singleton_append]
    | case2 i r hi =>
      have hend : bytes.data.toList.length ≤ i := Nat.le_of_not_lt hi
      rw [List.drop_of_length_le hend, List.append_nil]
  rw [ByteArray.toList, hloop, List.reverse_nil, List.nil_append, List.drop_zero]

theorem toList_toUTF8_inj {s t : String} : s.toUTF8.toList = t.toUTF8.toList ↔ s = t := by
  constructor
  · intro h
    rw [toList_eq_data, toList_eq_data, Array.toList_inj] at h
    exact String.toByteArray_inj.mp (ByteArray.ext h)
  · rintro rfl
    rfl

theorem toList_toUTF8_ofList {cs : List Char} (h : ∀ c ∈ cs, c.toNat < 128) :
    (String.ofList cs).toUTF8.toList = cs.map fun c => .ofNat c.toNat := by
  rw [toList_eq_data, String.toUTF8, String.toByteArray_ofList, List.utf8Encode,
    List.data_toByteArray]
  induction cs with
  | nil => rfl
  | cons c cs ih =>
    obtain ⟨hc, hcs⟩ := List.forall_mem_cons.mp h
    have hsize : c.utf8Size = 1 :=
      Char.utf8Size_eq_one_iff.mpr (UInt32.le_iff_toNat_le.mpr (Nat.le_of_lt_succ hc))
    rw [List.flatMap_cons, String.utf8EncodeChar_eq_singleton hsize, List.singleton_append,
      List.map_cons, ← ih hcs]
    rfl

/-- All pieces have `n + 1` values, except that the last one may have less, but not none. -/
def Cut (n : ℕ) : List (List α) → Prop
  | [] => True
  | p :: ps => 1 ≤ p.length ∧ p.length ≤ n + 1 ∧ (ps ≠ [] → p.length = n + 1) ∧ Cut n ps

theorem Cut.length_mem {n : ℕ} {ps : List (List α)} (h : Cut n ps) :
    ∀ p ∈ ps, 1 ≤ p.length ∧ p.length ≤ n + 1 := by
  induction ps with
  | nil => simp
  | cons p ps ih =>
    obtain ⟨hpos, hle, -, hrest⟩ := h
    exact List.forall_mem_cons.mpr ⟨⟨hpos, hle⟩, ih hrest⟩

@[simp] theorem flatten_blocks (n : ℕ) (l : List α) : (blocks n l).flatten = l := by
  fun_induction blocks n l with
  | case1 => rfl
  | case2 a l ih => rw [List.flatten_cons, ih, List.cons_append, List.take_append_drop]

theorem cut_blocks (n : ℕ) (l : List α) : Cut n (blocks n l) := by
  fun_induction blocks n l with
  | case1 => trivial
  | case2 a l ih =>
    refine ⟨by simp, by simp, fun hrest => ?_, ih⟩
    have hmore : l.drop n ≠ [] := by
      intro hnone
      exact hrest (by rw [hnone, blocks])
    have hlength := List.length_drop ▸ List.length_pos_iff.mpr hmore
    rw [List.length_cons, List.length_take]
    omega

theorem blocks_flatten {n : ℕ} {ps : List (List α)} (h : Cut n ps) : blocks n ps.flatten = ps := by
  induction ps with
  | nil => rw [List.flatten_nil, blocks]
  | cons p ps ih =>
    obtain ⟨hpos, hle, hfull, hrest⟩ := h
    obtain ⟨a, p, rfl⟩ := List.exists_cons_of_length_pos hpos
    rw [List.flatten_cons, List.cons_append, blocks]
    by_cases hlast : ps = []
    · subst hlast
      rw [List.length_cons] at hle
      simp [List.take_of_length_le (Nat.le_of_succ_le_succ hle),
        List.drop_of_length_le (Nat.le_of_succ_le_succ hle), blocks]
    · have hlength : p.length = n := Nat.succ.inj (hfull hlast)
      rw [← hlength, List.take_left, List.drop_left, hlength, ih hrest]

theorem cut_map_encodeBlockBytes {parts : List (List UInt8)} (h : ∀ b ∈ parts, b.length ≤ 8) :
    Cut 10 (parts.map encodeBlockBytes) ↔ Cut 7 parts := by
  have hwidths : ∀ len ≤ 8, (1 ≤ width len ↔ 1 ≤ len) ∧ width len ≤ 11 ∧
      (width len = 11 ↔ len = 8) := by decide
  induction parts with
  | nil => exact Iff.rfl
  | cons b parts ih =>
    obtain ⟨hb, hparts⟩ := List.forall_mem_cons.mp h
    obtain ⟨hpos, hle, hfull⟩ := hwidths b.length hb
    simp only [List.map_cons, Cut, length_encodeBlockBytes, hpos, hle, hfull, ih hparts, hb, ne_eq,
      List.map_eq_nil_iff, true_and]

theorem toList_toUTF8_encode (bytes : List UInt8) :
    (encode bytes).toUTF8.toList = (blocks 7 bytes).flatMap encodeBlockBytes := by
  have hascii : ∀ d < 58, (symbol d).toNat < 128 := by decide
  rw [encode, toList_toUTF8_ofList, List.map_flatMap]
  · rfl
  · intro c hc
    obtain ⟨block, -, hc⟩ := List.mem_flatMap.mp hc
    obtain ⟨d, hd, rfl⟩ := List.mem_map.mp hc
    exact hascii d (digits_lt hd)

/-- Blocks are decoded one by one, each from its own characters. -/
theorem decode_eq_ok_iff_blocks {text : String} {bytes : List UInt8} :
    decode text = .ok bytes ↔ ∃ parts : List (List UInt8), (∀ b ∈ parts, b.length ≤ 8) ∧
      parts.map encodeBlockBytes = blocks 10 text.toUTF8.toList ∧ parts.flatten = bytes := by
  have hblocks {chars parts : List (List UInt8)} :
      List.Forall₂ (fun c b => decodeBlock c = .ok b) chars parts ↔
        (∀ b ∈ parts, b.length ≤ 8) ∧ parts.map encodeBlockBytes = chars :=
    forall₂_iff_map (P := fun b : List UInt8 => b.length ≤ 8) fun _ _ => decodeBlock_eq_ok_iff
  simp only [decode, Except.bind_eq_ok_iff, Except.mapM_eq_ok_iff, hblocks, pure, Except.pure,
    Except.ok.injEq, and_assoc]

theorem decode_eq_ok_iff {text : String} {bytes : List UInt8} :
    decode text = .ok bytes ↔ encode bytes = text := by
  rw [decode_eq_ok_iff_blocks, ← toList_toUTF8_inj, toList_toUTF8_encode, List.flatMap_def]
  constructor
  · -- The blocks of the text say where its bytes are cut, and there is no other way to cut them.
    rintro ⟨parts, hle, hchars, rfl⟩
    have hcut : Cut 7 parts := (cut_map_encodeBlockBytes hle).mp (hchars ▸ cut_blocks _ _)
    rw [blocks_flatten hcut, hchars, flatten_blocks]
  · intro h
    have hcut := cut_blocks 7 bytes
    have hle : ∀ b ∈ blocks 7 bytes, b.length ≤ 8 := fun b hb => (hcut.length_mem b hb).2
    refine ⟨blocks 7 bytes, hle, ?_, flatten_blocks 7 bytes⟩
    rw [← h, blocks_flatten ((cut_map_encodeBlockBytes hle).mpr hcut)]

/-- Only the last block of a text may have another number of characters than eleven. -/
theorem length_encode (bytes : List UInt8) :
    (encode bytes).length = 11 * (bytes.length / 8) + width (bytes.length % 8) := by
  rw [encode, String.length_ofList]
  fun_induction blocks 7 bytes with
  | case1 => rfl
  | case2 a l ih =>
    rw [List.flatMap_cons, List.length_append, ih, length_encodeBlock, List.length_cons,
      List.length_take, List.length_drop]
    by_cases hlong : 7 ≤ l.length
    · have hwidth : width (min 7 l.length + 1) = 11 := by rw [Nat.min_eq_left hlong]; rfl
      have hdiv : (l.length + 1) / 8 = (l.length - 7) / 8 + 1 := by omega
      have hmod : (l.length + 1) % 8 = (l.length - 7) % 8 := by omega
      rw [List.length_cons, hwidth, hdiv, hmod]
      ring
    · have hnone : l.length - 7 = 0 := by omega
      have hdiv : (l.length + 1) / 8 = 0 := by omega
      have hmod : (l.length + 1) % 8 = min 7 l.length + 1 := by omega
      rw [List.length_cons, hnone, hdiv, hmod]
      simp [width, widths]

end ConfidentialTx.Base58
