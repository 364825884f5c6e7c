import ConfidentialTx.Confidential.Scan
import ConfidentialTx.Confidential.Unchecked
import ConfidentialTx.Proofs.Confidential.WireFormat
import ConfidentialTx.Proofs.Wire.Cursor
import ConfidentialTx.Proofs.Wire.SizeCheck

/-! The size of a confidential signature. The check that it can be among the bytes left is computed with
saturated sums and products from numbers that anyone may have chosen. It refuses no signature that is
there, and where it is passed the numbers are so small that plain sums of them are sizes. -/
namespace ConfidentialTx.Confidential

open Wire Wire.Parser

/-! ## Without the check -/

theorem takes_fieldsParser {kind : Kind} (hk : kind ≠ .null) (inputs outputs columns : ℕ) :
    (fieldsParser kind inputs outputs columns).Takes (fieldsLength kind inputs outputs columns) := by
  intro r s r' h
  obtain ⟨⟨rfl, hshape, -⟩, hpasses⟩ := (fieldsParser_reads hk inputs outputs columns r s r').mp h
  have hfee := List.length_pos_iff.mpr (Varint.encode_ne_nil s.fee.toNat)
  have hfit := fieldsLength_le s.kind inputs outputs columns
  rw [hpasses.remaining, hshape.length_fieldBytes]
  omega

theorem Signature.agrees_parse (inputs outputs mixin : ℕ) :
    (Signature.parse inputs outputs mixin).Agrees
      (Signature.parseUnchecked inputs outputs mixin) := by
  refine (Agrees.refl _).bind fun kind => ?_
  by_cases hk : kind = .null
  · rw [if_pos hk, if_pos hk]
    exact .refl _
  · rw [if_neg hk, if_neg hk]
    exact (takes_fieldsParser hk _ _ _).agrees_of_remaining _

/-! ## Behind the check -/

theorem maxSize_le_saturate {n : ℕ} (h : maxSize ≤ n) : maxSize ≤ saturate n := le_min h le_rfl

/-- Where the number of layers is too large to be counted, so is everything that depends on it. -/
theorem maxSize_le_fieldsLength {kind : Kind} (hkind : kind ≠ .simple) {inputs columns : ℕ}
    (hcolumns : 0 < columns) (hrows : maxSize ≤ inputs + 1) (outputs : ℕ) :
    maxSize ≤ fieldsLength kind inputs outputs columns := by
  have hlayers : maxSize ≤ columns * saturate (inputs + 1) :=
    (maxSize_le_saturate hrows).trans (Nat.le_mul_of_pos_left _ hcolumns)
  have hspend : maxSize ≤ spendKeys kind inputs columns := by
    cases kind with
    | simple => exact absurd rfl hkind
    | null | full => exact maxSize_le_saturate (Nat.le_add_right_of_le (maxSize_le_saturate hlayers))
  have hkeys : maxSize ≤ saturate (saturate (pseudoCount kind inputs + saturate (outputs * 196)) +
      spendKeys kind inputs columns) := maxSize_le_saturate (Nat.le_add_left_of_le hspend)
  have hbytes := maxSize_le_saturate (hkeys.trans (Nat.le_mul_of_pos_right _ (by decide : 0 < 32)))
  exact maxSize_le_saturate (Nat.le_add_right_of_le hbytes)

theorem spendShape?_eq_some {kind : Kind} {inputs outputs : ℕ} (mixin : ℕ)
    (h : fieldsLength kind inputs outputs (saturate (mixin + 1)) < sliceBound) :
    spendShape? kind inputs = some (spendShape kind inputs) := by
  by_cases hkind : kind = .simple
  · rw [hkind]
    rfl
  have hcolumns : 0 < saturate (mixin + 1) := lt_min (Nat.succ_pos _) (by decide)
  have hrows : inputs + 1 ≤ maxSize := by
    by_contra hrows
    have hlarge := maxSize_le_fieldsLength hkind hcolumns (Nat.le_of_not_le hrows) outputs
    exact absurd (hlarge.trans_lt h) (by decide)
  cases kind with
  | simple => exact absurd rfl hkind
  | null | full => simp only [spendShape?, spendShape, addSizes?, if_pos hrows, Option.map_some]

theorem follows_kindScan : kindScan.Follows kindParser :=
  (Scan.follows_byte _).bind fun _ => Scan.follows_ofExcept _

theorem follows_maskedAmountScan : maskedAmountScan.Follows maskedAmountParser :=
  (Scan.follows_key _).bind fun _ => (Scan.follows_key _).bind fun _ => Scan.follows_pure _

theorem follows_outputScan : outputScan.Follows outputParser :=
  (Scan.follows_key _).bind fun _ => Scan.follows_pure _

theorem follows_rangeProofScan : rangeProofScan.Follows rangeProofParser := by
  refine ((Scan.follows_key _).tuple 64).bind fun first => ?_
  refine ((Scan.follows_key _).tuple 64).bind fun second => ?_
  refine (Scan.follows_key _).bind fun challenge => ?_
  exact ((Scan.follows_key _).tuple 64).bind fun bits => Scan.follows_pure _

theorem follows_spendProofScan (columns rows : ℕ) :
    (spendProofScan columns rows).Follows (spendProofParser columns rows) := by
  refine (((Scan.follows_key _).times rows).times columns).bind fun responses => ?_
  exact (Scan.follows_key _).bind fun challenge => Scan.follows_pure _

theorem follows_fieldsScan {kind : Kind} {inputs : ℕ}
    (hshape : spendShape? kind inputs = some (spendShape kind inputs)) (outputs columns : ℕ) :
    (fieldsScan kind inputs outputs columns).Follows
      (fieldsParser kind inputs outputs columns) := by
  refine (Scan.follows_varint _).bind fun fee => ?_
  refine ((Scan.follows_key _).times _).bind fun pseudoOutputs => ?_
  refine (follows_maskedAmountScan.times _).bind fun maskedAmounts => ?_
  refine (follows_outputScan.times _).bind fun coins => ?_
  refine (follows_rangeProofScan.times _).bind fun rangeProofs => ?_
  rw [hshape, Scan.ofOption_some_bind]
  exact ((follows_spendProofScan _ _).times _).bind fun spendProofs => Scan.follows_pure _

/-- Reading a signature from a slice has an outcome, whatever numbers it is read for. -/
theorem Signature.follows_scan (inputs outputs mixin : ℕ) :
    (Signature.scan inputs outputs mixin).Follows (Signature.parse inputs outputs mixin) := by
  refine follows_kindScan.bind fun kind => .ite (Scan.follows_pure _) ?_
  refine Scan.follows_of_remaining _ fun c hleft => ?_
  have hshape := spendShape?_eq_some mixin (hleft.trans_lt c.remaining_lt)
  exact follows_fieldsScan hshape outputs _ c

end ConfidentialTx.Confidential
