import ConfidentialTx.Confidential.Wire
import ConfidentialTx.Proofs.Wire.Varint
import Mathlib.Algebra.Order.Ring.Nat
import Mathlib.Tactic.Ring
import Mathlib.Tactic.GCongr

/-! The wire format of confidential signatures. No count is written, so the numbers of inputs and
outputs and the size of the rings decide how long every list is. -/
namespace ConfidentialTx

/-- A response for every key of a matrix with so many columns and rows. -/
structure Mlsag.Signature.HasShape (m : Mlsag.Signature) (columns rows : Nat) : Prop where
  columns_eq : m.responses.length = columns
  rows_eq : ∀ column ∈ m.responses, column.length = rows

namespace Confidential

open Wire Wire.Parser Wire.Reader

/-- The lengths of a signature with hidden amounts for so many inputs and outputs, whose spend
proofs have so many columns. -/
structure Signature.HasShape (s : Signature) (inputs outputs columns : Nat) : Prop where
  length_maskedAmounts : s.maskedAmounts.length = outputs
  length_outputs : s.outputs.length = outputs
  length_rangeProofs : s.rangeProofs.length = outputs
  spends : match s.kind with
    | .null => False
    | .simple => s.pseudoOutputs.length = inputs ∧ s.spendProofs.length = inputs ∧
        ∀ m ∈ s.spendProofs, m.HasShape columns 2
    | .full => s.pseudoOutputs = [] ∧ s.spendProofs.length = 1 ∧
        ∀ m ∈ s.spendProofs, m.HasShape columns (inputs + 1)

/-- All that is not written is missing. -/
structure Signature.IsBlank (s : Signature) : Prop where
  message : s.message = .zero
  rings : s.rings = []
  senders : ∀ m ∈ s.maskedAmounts, m.senderKey = .zero
  destinations : ∀ coin ∈ s.outputs, coin.destination = .zero
  images : ∀ m ∈ s.spendProofs, m.images = []

/-- What can be read for so many inputs and outputs and so many ring members. -/
def Signature.WireShaped (s : Signature) (inputs outputs columns : Nat) : Prop :=
  s = .null ∨ (s.HasShape inputs outputs columns ∧ s.IsBlank)

theorem keys_reads (field : String) (n : Nat) :
    ((key field).times n).Reads Key.concat fun ks => ks.length = n := by
  intro r ks r'
  rw [(key_reads field).times n r ks r']
  simp only [implies_true, and_true, Key.concat]

theorem maskedAmountParser_reads : maskedAmountParser.Reads
    (fun m => m.mask.toList ++ m.amount.toList) fun m => m.senderKey = .zero := by
  intro r a r'
  simp only [maskedAmountParser, bind_eq_ok_iff, pure_eq_ok_iff, key_reads _ _ _ _, true_and,
    passes_append_iff]
  constructor
  · rintro ⟨mask, m, h₁, amount, m', h₂, rfl, rfl⟩
    exact ⟨rfl, m, h₁, h₂⟩
  · rintro ⟨hz, m, h₁, h₂⟩
    exact ⟨a.mask, m, h₁, a.amount, r', h₂, by rw [← hz], rfl⟩

theorem outputParser_reads : outputParser.Reads (·.commitment.toList)
    fun coin => coin.destination = .zero := by
  intro r coin r'
  simp only [outputParser, bind_eq_ok_iff, pure_eq_ok_iff, key_reads _ _ _ _, true_and]
  constructor
  · rintro ⟨k, m, h, rfl, rfl⟩
    exact ⟨rfl, h⟩
  · rintro ⟨hz, h⟩
    exact ⟨coin.commitment, r', h, by rw [← hz], rfl⟩

theorem rangeProofParser_reads : rangeProofParser.Reads RangeProof.toBytes fun _ => True := by
  intro r p r'
  have hkeys : ∀ field n,
      ((key field).tuple n).Reads (fun t => Key.concat t.toList) fun _ => True :=
    fun field n => (key_reads field).tuple n
  simp only [rangeProofParser, bind_eq_ok_iff, pure_eq_ok_iff, hkeys _ _ _ _ _, key_reads _ _ _ _,
    true_and, RangeProof.toBytes, RangeProof.keys, Key.concat_append, Key.concat_cons,
    passes_append_iff, List.append_assoc]
  constructor
  · rintro ⟨first, m₁, h₁, second, m₂, h₂, challenge, m₃, h₃, bits, m₄, h₄, rfl, rfl⟩
    exact ⟨m₁, h₁, m₂, h₂, m₃, h₃, h₄⟩
  · rintro ⟨m₁, h₁, m₂, h₂, m₃, h₃, h₄⟩
    exact ⟨_, m₁, h₁, _, m₂, h₂, _, m₃, h₃, _, r', h₄, rfl, rfl⟩

theorem spendProofParser_reads (columns rows : Nat) : (spendProofParser columns rows).Reads
    Signature.spendBytes fun m => m.HasShape columns rows ∧ m.images = [] := by
  intro r p r'
  have hcolumns : (((key "MLSAG response").times rows).times columns).Reads
      (·.flatMap Key.concat) fun l => l.length = columns ∧ ∀ c ∈ l, c.length = rows :=
    (keys_reads "MLSAG response" rows).times columns
  simp only [spendProofParser, bind_eq_ok_iff, pure_eq_ok_iff, hcolumns _ _ _, key_reads _ _ _ _,
    true_and, Signature.spendBytes, passes_append_iff]
  constructor
  · rintro ⟨responses, m, ⟨⟨h₁, h₂⟩, h₃⟩, challenge, m', h₄, rfl, rfl⟩
    exact ⟨⟨⟨h₁, h₂⟩, rfl⟩, m, h₃, h₄⟩
  · rintro ⟨⟨⟨h₁, h₂⟩, hi⟩, m, h₃, h₄⟩
    exact ⟨_, m, ⟨⟨h₁, h₂⟩, h₃⟩, _, r', h₄, by rw [← hi], rfl⟩

def Signature.fieldBytes (s : Signature) : List UInt8 :=
  Varint.encode s.fee.toNat ++ (Key.concat s.pseudoOutputs ++
    (s.maskedAmounts.flatMap (fun m => m.mask.toList ++ m.amount.toList) ++
      (s.outputs.flatMap (·.commitment.toList) ++
        (s.rangeBytes ++ s.spendProofs.flatMap spendBytes))))

theorem Signature.HasShape.kind_ne {s : Signature} {inputs outputs columns : Nat}
    (h : s.HasShape inputs outputs columns) : s.kind ≠ .null := by
  intro hk
  have hs := h.spends
  rw [hk] at hs
  exact hs

theorem Signature.HasShape.toBytes_eq {s : Signature} {inputs outputs columns : Nat}
    (h : s.HasShape inputs outputs columns) : s.toBytes = s.kind.tag :: s.fieldBytes := by
  have hs := h.spends
  cases hk : s.kind with
  | null => exact absurd hk h.kind_ne
  | full =>
    rw [hk] at hs
    simp [toBytes, baseBytes, prunableBytes, fieldBytes, hk, hs.1]
  | simple => simp [toBytes, baseBytes, prunableBytes, fieldBytes, hk]

theorem Signature.hasShape_iff {s : Signature} {inputs outputs columns : Nat}
    (hk : s.kind ≠ .null) : s.HasShape inputs outputs columns ↔
      s.pseudoOutputs.length = pseudoCount s.kind inputs ∧ s.maskedAmounts.length = outputs ∧
        s.outputs.length = outputs ∧ s.rangeProofs.length = outputs ∧
        s.spendProofs.length = (spendShape s.kind inputs).1 ∧
        ∀ m ∈ s.spendProofs, m.HasShape columns (spendShape s.kind inputs).2 := by
  constructor
  · rintro ⟨h₁, h₂, h₃, hs⟩
    cases hkind : s.kind with
    | null => exact absurd hkind hk
    | full =>
      rw [hkind] at hs
      exact ⟨by rw [hs.1]; rfl, h₁, h₂, h₃, hs.2⟩
    | simple =>
      rw [hkind] at hs
      exact ⟨hs.1, h₁, h₂, h₃, hs.2⟩
  · rintro ⟨hp, h₁, h₂, h₃, hs⟩
    refine ⟨h₁, h₂, h₃, ?_⟩
    cases hkind : s.kind with
    | null => exact absurd hkind hk
    | full =>
      rw [hkind] at hp hs
      exact ⟨List.length_eq_zero_iff.mp hp, hs⟩
    | simple =>
      rw [hkind] at hp hs
      exact ⟨hp, hs⟩

theorem fieldsParser_reads {kind : Kind} (hk : kind ≠ .null) (inputs outputs columns : Nat) :
    (fieldsParser kind inputs outputs columns).Reads Signature.fieldBytes
      fun s => s.kind = kind ∧ s.HasShape inputs outputs columns ∧ s.IsBlank := by
  intro r s r'
  rcases hshape : spendShape kind inputs with ⟨proofs, rows⟩
  have hmasked := maskedAmountParser_reads.times outputs
  have hcoins := outputParser_reads.times outputs
  have hranges := rangeProofParser_reads.times outputs
  have hspends := (spendProofParser_reads columns rows).times proofs
  simp only [fieldsParser, hshape, bind_eq_ok_iff, pure_eq_ok_iff, varint_reads _ _ _ _,
    keys_reads _ _ _ _ _, hmasked _ _ _, hcoins _ _ _, hranges _ _ _, hspends _ _ _,
    Signature.fieldBytes, Signature.rangeBytes, passes_append_iff, true_and]
  constructor
  · rintro ⟨fee, m₁, h₁, pseudos, m₂, ⟨hn₂, h₂⟩, masked, m₃, ⟨⟨hn₃, hb₃⟩, h₃⟩, coins, m₄,
      ⟨⟨hn₄, hb₄⟩, h₄⟩, proofs', m₅, ⟨⟨hn₅, -⟩, h₅⟩, spends, m₆, ⟨⟨hn₆, hs₆⟩, h₆⟩, rfl, rfl⟩
    refine ⟨⟨rfl, ?_, rfl, rfl, hb₃, hb₄, fun m hm => (hs₆ m hm).2⟩, m₁, h₁, m₂, h₂, m₃, h₃, m₄, h₄,
      m₅, h₅, h₆⟩
    rw [Signature.hasShape_iff hk]
    rw [hshape]
    exact ⟨hn₂, hn₃, hn₄, hn₅, hn₆, fun m hm => (hs₆ m hm).1⟩
  · rintro ⟨⟨rfl, hs, hb⟩, m₁, h₁, m₂, h₂, m₃, h₃, m₄, h₄, m₅, h₅, h₆⟩
    obtain ⟨hn₂, hn₃, hn₄, hn₅, hn₆, hs₆⟩ := (Signature.hasShape_iff hk).mp hs
    rw [hshape] at hn₆ hs₆
    refine ⟨s.fee, m₁, h₁, s.pseudoOutputs, m₂, ⟨hn₂, h₂⟩, s.maskedAmounts, m₃,
      ⟨⟨hn₃, hb.senders⟩, h₃⟩, s.outputs, m₄, ⟨⟨hn₄, hb.destinations⟩, h₄⟩, s.rangeProofs, m₅,
      ⟨⟨hn₅, by simp⟩, h₅⟩, s.spendProofs, r', ⟨⟨hn₆, fun m hm => ⟨hs₆ m hm, hb.images m hm⟩⟩, h₆⟩,
      ?_, rfl⟩
    rw [← hb.message, ← hb.rings]

theorem length_flatMap_of_length {α : Type} {write : α → List UInt8} {k : Nat} {as : List α}
    (h : ∀ a ∈ as, (write a).length = k) : (as.flatMap write).length = k * as.length := by
  induction as with
  | nil => rfl
  | cons a as ih =>
    have h₁ := h a (by simp)
    have h₂ := ih fun b hb => h b (by simp [hb])
    rw [List.flatMap_cons, List.length_append, h₁, h₂, List.length_cons, Nat.mul_succ]
    omega

theorem length_spendBytes {m : Mlsag.Signature} {columns rows : Nat} (h : m.HasShape columns rows) :
    (Signature.spendBytes m).length = 32 * (columns * rows + 1) := by
  have hc : ∀ column ∈ m.responses, (Key.concat column).length = 32 * rows := by
    intro column hm
    rw [Key.length_concat, h.rows_eq column hm]
  rw [Signature.spendBytes, List.length_append, length_flatMap_of_length hc, h.columns_eq,
    Tuple.length_toList]
  ring

theorem Signature.HasShape.length_fieldBytes {s : Signature} {inputs outputs columns : Nat}
    (h : s.HasShape inputs outputs columns) :
    s.fieldBytes.length = (Varint.encode s.fee.toNat).length +
      32 * (pseudoCount s.kind inputs + outputs * 196 +
        (spendShape s.kind inputs).1 * (columns * (spendShape s.kind inputs).2 + 1)) := by
  obtain ⟨hp, hm, ho, hr, hn, hs⟩ := (hasShape_iff h.kind_ne).mp h
  have h₁ : (s.maskedAmounts.flatMap fun m => m.mask.toList ++ m.amount.toList).length =
      64 * outputs := by
    have hb : ∀ m ∈ s.maskedAmounts, (m.mask.toList ++ m.amount.toList).length = 64 := by simp
    rw [length_flatMap_of_length hb, hm]
  have h₂ : (s.outputs.flatMap (·.commitment.toList)).length = 32 * outputs := by
    rw [length_flatMap_of_length (fun coin _ => coin.commitment.length_toList), ho]
  have h₃ : s.rangeBytes.length = 32 * 193 * outputs := by
    have hb : ∀ p ∈ s.rangeProofs, p.toBytes.length = 32 * 193 := by
      intro p _
      rw [RangeProof.toBytes, Key.length_concat, RangeProof.length_keys, RangeProof.keyCount]
    rw [rangeBytes, length_flatMap_of_length hb, hr]
  have h₄ : (s.spendProofs.flatMap spendBytes).length =
      32 * (columns * (spendShape s.kind inputs).2 + 1) * (spendShape s.kind inputs).1 := by
    rw [length_flatMap_of_length fun m hm => length_spendBytes (hs m hm), hn]
  simp only [fieldBytes, List.length_append, Key.length_concat, hp, h₁, h₂, h₃, h₄]
  ring

theorem saturate_mono {a b : Nat} (h : a ≤ b) : saturate a ≤ b := (saturate_le a).trans h

/-- The size that is asked for in advance is never more than what is there to be read. -/
theorem fieldsLength_le (kind : Kind) (inputs outputs columns : Nat) :
    fieldsLength kind inputs outputs columns ≤
      1 + 32 * (pseudoCount kind inputs + outputs * 196 +
        (spendShape kind inputs).1 * (columns * (spendShape kind inputs).2 + 1)) := by
  have hspend : spendKeys kind inputs columns ≤
      (spendShape kind inputs).1 * (columns * (spendShape kind inputs).2 + 1) := by
    cases kind with
    | simple =>
      refine saturate_mono (Nat.mul_le_mul_left inputs (saturate_mono ?_))
      exact Nat.add_le_add_right (saturate_le _) 1
    | null | full =>
      simp only [spendKeys, spendShape, one_mul]
      refine saturate_mono (Nat.add_le_add_right (saturate_mono ?_) 1)
      exact Nat.mul_le_mul_left columns (saturate_le _)
  have hkeys : saturate (saturate (pseudoCount kind inputs + saturate (outputs * 196)) +
      spendKeys kind inputs columns) ≤ pseudoCount kind inputs + outputs * 196 +
        (spendShape kind inputs).1 * (columns * (spendShape kind inputs).2 + 1) := by
    refine saturate_mono (Nat.add_le_add (saturate_mono ?_) hspend)
    exact Nat.add_le_add_left (saturate_le _) _
  refine saturate_mono ?_
  have h := saturate_mono (Nat.mul_le_mul_right 32 hkeys)
  omega

theorem kindParser_eq_ok_iff {kind : Kind} {r r' : Reader} :
    kindParser r = (.ok kind, r') ↔ r.Passes [kind.tag] r' := by
  simp only [kindParser, bind_eq_ok_iff, ofExcept_eq_ok_iff, byte_reads _ _ _ _, true_and,
    Kind.ofTag_eq_ok_iff]
  constructor
  · rintro ⟨t, m, h, rfl, rfl⟩
    exact h
  · intro h
    exact ⟨kind.tag, r', h, rfl, rfl⟩

theorem Signature.parse_reads (inputs outputs mixin : Nat) :
    (Signature.parse inputs outputs mixin).Reads Signature.toBytes
      fun s => s.WireShaped inputs outputs (saturate (mixin + 1)) := by
  intro r s r'
  simp only [Signature.parse, bind_eq_ok_iff, kindParser_eq_ok_iff]
  constructor
  · rintro ⟨kind, m, hkind, h⟩
    split at h
    · rename_i hk
      obtain ⟨rfl, rfl⟩ := pure_eq_ok_iff.mp h
      rw [hk] at hkind
      exact ⟨.inl rfl, hkind⟩
    · rename_i hk
      obtain ⟨left, m', hleft, h⟩ := bind_eq_ok_iff.mp h
      obtain ⟨rfl, rfl⟩ := remaining_eq_ok_iff.mp hleft
      split at h
      · exact absurd h fail_ne_ok
      · obtain ⟨⟨rfl, hs, hb⟩, hp⟩ := (fieldsParser_reads hk _ _ _ _ _ _).mp h
        refine ⟨.inr ⟨hs, hb⟩, ?_⟩
        rw [hs.toBytes_eq]
        exact passes_cons_iff.mpr ⟨m', hkind, hp⟩
  · rintro ⟨rfl | ⟨hs, hb⟩, hp⟩
    · exact ⟨.null, r', hp, pure_eq_ok_iff.mpr ⟨rfl, rfl⟩⟩
    · rw [hs.toBytes_eq] at hp
      obtain ⟨m, hkind, hp⟩ := passes_cons_iff.mp hp
      refine ⟨s.kind, m, hkind, ?_⟩
      rw [if_neg hs.kind_ne, bind_eq_ok_iff]
      refine ⟨m.remaining, m, remaining_eq_ok_iff.mpr ⟨rfl, rfl⟩, ?_⟩
      have hlen := hp.remaining
      have hfee := List.length_pos_iff.mpr (Varint.encode_ne_nil s.fee.toNat)
      have hfit := fieldsLength_le s.kind inputs outputs (saturate (mixin + 1))
      rw [hs.length_fieldBytes] at hlen
      rw [if_neg (by omega)]
      exact (fieldsParser_reads hs.kind_ne _ _ _ _ _ _).mpr ⟨⟨rfl, hs, hb⟩, hp⟩

end Confidential
end ConfidentialTx
