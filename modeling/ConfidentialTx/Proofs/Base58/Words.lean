import ConfidentialTx.Base58.Words
import ConfidentialTx.Proofs.Base58.Text

/-! Base 58 in words of 64 bits always has an outcome, which is the one with numbers of any size: blocks
are never empty and never longer than a word, and no digit is added to a number that would be too large. -/
namespace ConfidentialTx.Base58

theorem symbols?_eq (w : ℕ) (n : UInt64) :
    symbols? w n = some ((digits w n.toNat).map symbol) := by
  induction w generalizing n with
  | zero => rfl
  | succ w ih =>
    have hplace : n.toNat % 58 < alphabet.length := Nat.mod_lt _ (by decide)
    have hsymbol : alphabet[(n % 58).toNat]? = some (symbol (n.toNat % 58)) := by
      rw [UInt64.toNat_mod, symbol, List.getD_eq_getElem _ _ hplace]
      exact List.getElem?_eq_getElem hplace
    rw [symbols?, hsymbol, ih, UInt64.toNat_div, digits, List.map_append]
    rfl

theorem encodeBlock?_eq {block : List UInt8} (hpos : 1 ≤ block.length) (hle : block.length ≤ 8) :
    encodeBlock? block = some (encodeBlock block) := by
  have hwidths : ∀ len ≤ 8, widths[len]? = some (width len) ∧ width len ≤ fullWidth := by decide
  have hword : (UInt64.ofNat (Bytes.toNatBE block)).toNat = Bytes.toNatBE block :=
    UInt64.toNat_ofNat_of_lt' ((Bytes.toNatBE_lt block).trans_le (bound_le_size _ hle))
  obtain ⟨hwidth, hfits⟩ := hwidths _ hle
  have hread : readWord? block = some (.ofNat (Bytes.toNatBE block)) := if_pos ⟨hpos, hle⟩
  simp only [encodeBlock?, hread, hwidth, Option.bind_eq_bind, Option.bind_some, hfits, if_true,
    symbols?_eq, hword, encodeBlock]

theorem encodeWords_eq (bytes : List UInt8) : encodeWords bytes = some (encode bytes) := by
  have hblocks : (blocks 7 bytes).mapM encodeBlock? = some ((blocks 7 bytes).map encodeBlock) :=
    Option.mapM_eq_some_map fun block hblock =>
      encodeBlock?_eq ((cut_blocks 7 bytes).length_mem block hblock).1
        ((cut_blocks 7 bytes).length_mem block hblock).2
  rw [encodeWords, hblocks, encode, List.flatMap_def]
  rfl

theorem pushDigit?_eq (n : UInt64) {d : ℕ} (hd : d < 58) :
    pushDigit? n d =
      if n.toNat * 58 + d < UInt64.size then some (.ofNat (n.toNat * 58 + d)) else none := by
  have hdigit : (UInt64.ofNat d).toNat = d :=
    UInt64.toNat_ofNat_of_lt' (hd.trans (by decide))
  have hbase : (58 : UInt64).toNat = 58 := rfl
  by_cases hproduct : n.toNat * 58 < UInt64.size
  · have hshifted : (n * 58).toNat = n.toNat * 58 := by
      rw [UInt64.toNat_mul, hbase]
      exact Nat.mod_eq_of_lt hproduct
    have hsum : UInt64.ofNat (n.toNat * 58 + d) = n * 58 + .ofNat d := by
      rw [UInt64.ofNat_add, UInt64.ofNat_mul, UInt64.ofNat_toNat]
      rfl
    simp only [pushDigit?, mulWords?, hbase, hproduct, if_true, Option.bind_some, Amount.add?,
      hshifted, hdigit, hsum]
  · -- A product that is too large is so without the digit.
    have hlarge : ¬ n.toNat * 58 + d < UInt64.size := by omega
    simp only [pushDigit?, mulWords?, hbase, hproduct, hlarge, if_false, Option.bind_none]

theorem map_blockWord (n : UInt64) (chars : List UInt8) :
    (blockWord n chars).map UInt64.toNat = blockValue n.toNat chars := by
  induction chars generalizing n with
  | nil => rfl
  | cons c cs ih =>
    rw [blockWord, blockValue]
    cases hdigit : digit? c with
    | none => rfl
    | some d =>
      simp only [pushDigit?_eq n (digit?_eq_some_iff.mp hdigit).1]
      by_cases hsmall : n.toNat * 58 + d < UInt64.size
      · simp only [hsmall, if_true, ih, UInt64.toNat_ofNat_of_lt' hsmall]
      · simp only [hsmall, if_false]
        rfl

theorem exists_excess (n : UInt64) {len : ℕ} (hle : len ≤ 8) :
    ∃ excess, excess? len n = some excess ∧ (excess = 0 ↔ n.toNat < Bytes.bound len) := by
  have hbounds : ∀ len ≤ 8, Bytes.bound len = 2 ^ (8 * len) := by decide
  by_cases hshort : len < wordLength
  · have hbits : 8 * len < 64 := by rw [wordLength] at hshort; omega
    have hamount : (UInt64.ofNat (8 * len)).toNat = 8 * len :=
      UInt64.toNat_ofNat_of_lt' (hbits.trans (by decide))
    refine ⟨n >>> .ofNat (8 * len), by rw [excess?, if_pos hshort, shiftRight?, if_pos hbits], ?_⟩
    rw [← UInt64.toNat_inj, UInt64.toNat_shiftRight, hamount, Nat.mod_eq_of_lt hbits,
      Nat.shiftRight_eq_div_pow, hbounds len hle]
    exact Nat.div_eq_zero_iff_lt (Nat.two_pow_pos _)
  · -- A full block is not shifted, and every word fits.
    have hfull : len = 8 := le_antisymm hle (Nat.le_of_not_lt hshort)
    subst hfull
    exact ⟨0, rfl, iff_of_true rfl n.toNat_lt⟩

theorem decodeBlock?_eq {chars : List UInt8} (hpos : 1 ≤ chars.length) :
    decodeBlock? chars = some (decodeBlock chars) := by
  rw [decodeBlock?, decodeBlock]
  cases hwidth : blockLength? chars.length with
  | none => rfl
  | some len =>
    obtain ⟨hle, hchars⟩ := blockLength?_eq_some_iff.mp hwidth
    have hlen : 1 ≤ len := by
      cases len with
      | zero => exact absurd (hchars ▸ hpos) (by decide)
      | succ len => exact Nat.le_add_left 1 len
    have hvalue : blockValue 0 chars = (blockWord 0 chars).map UInt64.toNat :=
      (map_blockWord 0 chars).symm
    rw [hvalue]
    cases blockWord 0 chars with
    | error e => rfl
    | ok n =>
      obtain ⟨excess, hexcess, hzero⟩ := exists_excess n hle
      by_cases hbound : n.toNat < Bytes.bound len
      · have hwrite : writeWord? len n = some (Bytes.ofNatBE len n.toNat) :=
          if_pos ⟨hlen, hle, hbound⟩
        simp [hexcess, hzero.mpr hbound, hwrite, hbound, Except.map, bind, Except.bind, pure,
          Except.pure]
      · have hnonzero : excess ≠ 0 := mt hzero.mp hbound
        simp [hexcess, hnonzero, hbound, Except.map, bind, Except.bind]

theorem decodeBlocks?_eq (out : List UInt8) {parts : List (List UInt8)}
    (hpos : ∀ chars ∈ parts, 1 ≤ chars.length) :
    decodeBlocks? out parts = some ((parts.mapM decodeBlock).map fun decoded =>
      out ++ decoded.flatten) := by
  induction parts generalizing out with
  | nil => simp [decodeBlocks?, pure, Except.pure, Except.map]
  | cons chars parts ih =>
    obtain ⟨hchars, hparts⟩ := List.forall_mem_cons.mp hpos
    rw [decodeBlocks?, decodeBlock?_eq hchars, List.mapM_cons]
    cases decodeBlock chars with
    | error e => rfl
    | ok block =>
      simp only [Option.bind_eq_bind, Option.bind_some, ih _ hparts]
      cases parts.mapM decodeBlock with
      | error e => rfl
      | ok decoded => simp [Except.map, bind, Except.bind, pure, Except.pure]

theorem decodeWords_eq (text : String) : decodeWords text = some (decode text) :=
  decodeBlocks?_eq [] fun chars hchars =>
    ((cut_blocks 10 text.toUTF8.toList).length_mem chars hchars).1

/-- Byte strings and the texts that are accepted correspond one to one. A text is decoded to the bytes of
which it is the encoding, whose number decides its length, and refused if there are none. With words of
64 bits nothing goes wrong for any bytes or any text. -/
theorem decode_bijective :
    (∀ text bytes, decode text = .ok bytes ↔ encode bytes = text) ∧
    (∀ bytes, (encode bytes).length =
      11 * (bytes.length / 8) + width (bytes.length % 8)) ∧
    (∀ text, (∃ e, decode text = .error e) ↔ ∀ bytes, encode bytes ≠ text) ∧
    (∀ text, decodeWords text = some (decode text)) ∧
    ∀ bytes, encodeWords bytes = some (encode bytes) := by
  refine ⟨fun _ _ => decode_eq_ok_iff, length_encode, fun text => ?_, decodeWords_eq,
    encodeWords_eq⟩
  simp only [ne_eq, ← decode_eq_ok_iff]
  cases decode text <;> simp

end ConfidentialTx.Base58
