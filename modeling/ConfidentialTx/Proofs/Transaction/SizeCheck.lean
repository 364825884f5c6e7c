import ConfidentialTx.Proofs.Confidential.SizeCheck
import ConfidentialTx.Proofs.Outcome
import ConfidentialTx.Proofs.Transaction.WireFormat
import ConfidentialTx.Transaction.Unchecked

/-! The checks of sizes that come before anything of that size is read. They decide what a failure is
called and when it is noticed, never whether there is one. -/
namespace ConfidentialTx

open Wire Wire.Parser

/-! ## Ring signatures -/

theorem RingSignature.agrees_parse (ringSize : ℕ) :
    (RingSignature.parse ringSize).Agrees (RingSignature.parseUnchecked ringSize) := by
  have helements : (RingElement.parse.times ringSize).Takes (ringSize * 64) :=
    RingElement.parse_reads.takes_times (fun e _ => e.length_toBytes.ge) ringSize
  exact ((helements.bind _).mono (saturate_le _)).agrees_of_remaining _

theorem RingElement.follows_scan : RingElement.scan.Follows RingElement.parse :=
  (Scan.follows_key _).bind fun _ => (Scan.follows_key _).bind fun _ => Scan.follows_pure _

theorem RingSignature.follows_scan (ringSize : ℕ) :
    (RingSignature.scan ringSize).Follows (RingSignature.parse ringSize) := by
  refine Scan.follows_of_remaining _ fun c _ => ?_
  exact ((RingElement.follows_scan.times _).bind fun elements => Scan.follows_pure _) c

namespace Transaction

/-! ## Counted lists -/

theorem agrees_inputParser (limits : Limits) :
    (inputParser limits).Agrees (inputParserUnchecked limits) := by
  refine (Agrees.refl _).bind fun tag => (Agrees.refl _).ite ?_
  refine (Agrees.refl _).ite ((Agrees.refl _).ite (Agrees.ite ?_ (Agrees.refl _)))
  refine (Agrees.refl _).bind fun amount => ?_
  refine Agrees.count_bind (fun count => ?_) (fun count => .refl _) _ _
  exact ((amount_reads _).takes_times (fun v _ => one_le_length_amountBytes v) count).bind _

theorem agrees_bodyParser (limits : Limits) :
    (bodyParser limits).Agrees (bodyParserUnchecked limits) := by
  refine (Agrees.refl _).bind fun version => (Agrees.refl _).bind fun unlockTime => ?_
  refine Agrees.count_bind (fun inputCount => ?_) (fun inputCount => ?_) _ _
  · exact ((inputParser_reads limits).takes_times (fun i _ => i.two_le_length_toBytes) _).bind _
  refine ((agrees_inputParser limits).times inputCount).bind fun inputs => ?_
  refine Agrees.count_bind (fun outputCount => ?_) (fun outputCount => ?_) _ _
  · exact (outputParser_reads.takes_times (fun o _ => o.le_length_toBytes) _).bind _
  refine (Agrees.refl _).bind fun outputs => ?_
  refine Agrees.count_bind (fun extraLength => ?_) (fun extraLength => .refl _) _ _
  exact ((takes_bytes extraLength _).mono (Nat.mul_one _).le).bind _

theorem parser_agrees (limits : Limits) : (parser limits).Agrees (parserUnchecked limits) :=
  (agrees_bodyParser limits).bind fun _ => .refl _

/-- No success depends on a check of a size. Signatures are read for any numbers of inputs, outputs and
ring members as if nothing was compared with the bytes left, and so are transactions. Read from a
slice, signatures have an outcome for all of these numbers, and so has everything else that is read
there: sums that are not saturated, of positions and of numbers of layers, stay sizes. -/
theorem sizeChecks_transparent :
    (∀ inputs outputs mixin,
      (Confidential.Signature.parse inputs outputs mixin).Agrees
        (Confidential.Signature.parseUnchecked inputs outputs mixin) ∧
      (Confidential.Signature.scan inputs outputs mixin).Follows
        (Confidential.Signature.parse inputs outputs mixin)) ∧
    (∀ ringSize, (RingSignature.parse ringSize).Agrees (RingSignature.parseUnchecked ringSize) ∧
      (RingSignature.scan ringSize).Follows (RingSignature.parse ringSize)) ∧
    (∀ limits bytes t, parse limits bytes = .ok t ↔ parseUnchecked limits bytes = .ok t) ∧
    (∀ (c : Cursor) kind inputs outputs mixin,
      Confidential.fieldsLength kind inputs outputs (saturate (mixin + 1)) ≤ c.remaining →
        Confidential.spendShape? kind inputs = some (Confidential.spendShape kind inputs)) ∧
    ∀ n field, (Scan.bytes n field).Follows (Parser.bytes n field) := by
  refine ⟨fun inputs outputs mixin => ⟨?_, ?_⟩, fun ringSize => ⟨?_, ?_⟩, ?_, ?_, ?_⟩
  · exact Confidential.Signature.agrees_parse inputs outputs mixin
  · exact Confidential.Signature.follows_scan inputs outputs mixin
  · exact RingSignature.agrees_parse ringSize
  · exact RingSignature.follows_scan ringSize
  · exact fun limits bytes t => (parser_agrees limits).run_eq_ok_iff
  · intro c kind inputs outputs mixin hleft
    exact Confidential.spendShape?_eq_some mixin (hleft.trans_lt c.remaining_lt)
  · exact Scan.follows_bytes

/-- A body of one input with one offset and no output, and a full signature for it: no fee, and a proof of
one column and two layers. -/
def oneInput : List UInt8 :=
  [2, 0, 1, 2, 5, 1, 7] ++ List.replicate 32 3 ++ [0, 0] ++ [1, 0] ++ List.replicate 96 4

/-- The bytes are read with and without the checks, and 97 of them are left where the two layers of the
proof are counted. -/
theorem sizeChecks_transparent_oneInput :
    (∃ t, parse .standard oneInput = .ok t ∧ parseUnchecked .standard oneInput = .ok t) ∧
      Confidential.fieldsLength .full 1 0 (saturate (0 + 1)) ≤ 97 ∧
        Confidential.spendShape? .full 1 = some (1, 2) := by
  have hleft : Confidential.fieldsLength .full 1 0 (saturate (0 + 1)) ≤ 97 := by decide
  have hread : (parse .standard oneInput).isOk = true := by decide +kernel
  obtain ⟨-, -, hparse, hshape, -⟩ := sizeChecks_transparent
  obtain ⟨t, ht⟩ := Except.exists_eq_ok hread
  exact ⟨⟨t, ht, (hparse _ _ _).mp ht⟩, hleft,
    hshape (.start (.replicate 97 0) (by decide)) .full 1 0 0 hleft⟩

end Transaction
end ConfidentialTx
