import ConfidentialTx.Proofs.Transaction.Restoration
import ConfidentialTx.Proofs.Wire.Stability

/-! Where a transaction ends. The bytes themselves tell it: what is read as a transaction is cut
short if any byte at its end is missing, and what follows it is left over. So no transaction begins
with the bytes of another. -/
namespace ConfidentialTx

open Wire Wire.Parser

theorem RingElement.stable_parse : RingElement.parse.Stable :=
  (stable_key _).bind fun _ => (stable_key _).bind fun _ => stable_pure _

theorem RingSignature.stable_parse (ringSize : ℕ) : (RingSignature.parse ringSize).Stable :=
  ((RingElement.stable_parse.times ringSize).bind fun _ => stable_pure _).of_remaining _ _

namespace Confidential

theorem stable_kindParser : kindParser.Stable :=
  (stable_byte _).bind fun _ => stable_ofExcept _

theorem stable_maskedAmountParser : maskedAmountParser.Stable :=
  (stable_key _).bind fun _ => (stable_key _).bind fun _ => stable_pure _

theorem stable_outputParser : outputParser.Stable := (stable_key _).bind fun _ => stable_pure _

theorem stable_rangeProofParser : rangeProofParser.Stable := by
  refine ((stable_key _).tuple 64).bind fun first => ((stable_key _).tuple 64).bind fun second => ?_
  refine (stable_key _).bind fun challenge => ((stable_key _).tuple 64).bind fun bits => ?_
  exact stable_pure _

theorem stable_spendProofParser (columns rows : ℕ) : (spendProofParser columns rows).Stable := by
  refine (((stable_key _).times rows).times columns).bind fun responses => ?_
  exact (stable_key _).bind fun challenge => stable_pure _

theorem stable_fieldsParser (kind : Kind) (inputs outputs ringSize : ℕ) :
    (fieldsParser kind inputs outputs ringSize).Stable := by
  refine (stable_varint _).bind fun fee => ((stable_key _).times _).bind fun pseudoOutputs => ?_
  refine (stable_maskedAmountParser.times outputs).bind fun maskedAmounts => ?_
  refine (stable_outputParser.times outputs).bind fun coins => ?_
  refine (stable_rangeProofParser.times outputs).bind fun rangeProofs => ?_
  exact ((stable_spendProofParser _ _).times _).bind fun spendProofs => stable_pure _

theorem Signature.stable_parse (inputs outputs mixin : ℕ) :
    (Signature.parse inputs outputs mixin).Stable := by
  refine stable_kindParser.bind fun kind => (stable_pure _).ite ?_
  exact (stable_fieldsParser _ _ _ _).of_remaining _ _

end Confidential

namespace Transaction

theorem stable_inputParser (limits : Limits) : (inputParser limits).Stable := by
  refine (stable_byte _).bind fun tag => ?_
  refine ((stable_varint _).bind fun height => stable_pure _).ite ?_
  refine (stable_fail _).ite ((stable_fail _).ite (Stable.ite ?_ (stable_fail _)))
  refine (stable_varint _).bind fun amount => (stable_count _ _ _).bind fun count => ?_
  refine ((stable_varint _).times count).bind fun offsets => ?_
  exact (stable_key _).bind fun keyImage => stable_pure _

theorem stable_outputParser : outputParser.Stable := by
  refine (stable_varint _).bind fun amount => (stable_byte _).bind fun tag => ?_
  refine ((stable_key _).bind fun key => stable_pure _).ite ?_
  exact (stable_fail _).ite ((stable_fail _).ite (stable_fail _))

theorem stable_bodyParser (limits : Limits) : (bodyParser limits).Stable := by
  refine (stable_varint _).bind fun version => (stable_varint _).bind fun unlockTime => ?_
  refine (stable_count _ _ _).bind fun inputCount => ?_
  refine ((stable_inputParser limits).times inputCount).bind fun inputs => ?_
  refine (stable_count _ _ _).bind fun outputCount => ?_
  refine (stable_outputParser.times outputCount).bind fun outputs => ?_
  refine (stable_count _ _ _).bind fun extraLength => ?_
  exact (stable_bytes _ _).bind fun extra => stable_pure _

theorem stable_ringSignaturesParser (inputs : List Input) :
    (ringSignaturesParser inputs).Stable := by
  induction inputs with
  | nil => exact stable_pure []
  | cons i inputs ih =>
    exact (RingSignature.stable_parse _).bind fun s => ih.bind fun ss => stable_pure (s :: ss)

theorem stable_signaturesParser (body : Body) : (signaturesParser body).Stable := by
  refine (stable_fail _).ite (Stable.ite ?_ ?_)
  · exact (stable_ringSignaturesParser _).bind fun signatures => stable_pure _
  · refine (stable_ofExcept _).bind fun mixin => ?_
    exact (Confidential.Signature.stable_parse _ _ _).bind fun signature => stable_pure _

def contentsParser (limits : Limits) : Parser Transaction := do
  let body ← bodyParser limits
  let signatures ← signaturesParser body
  pure ⟨body, signatures, .parsed⟩

theorem stable_contentsParser (limits : Limits) : (contentsParser limits).Stable := by
  refine (stable_bodyParser limits).bind fun body => ?_
  exact (stable_signaturesParser body).bind fun signatures => stable_pure _

theorem parser_eq_whole (limits : Limits) : parser limits = (contentsParser limits).whole := by
  simp only [parser, contentsParser, whole, bind_assoc, pure_bind]

/-- If a byte string is read as a transaction, every shorter one that it begins with is cut short,
and all bytes behind it are left over. -/
theorem parse_of_prefix {limits : Limits} {bytes : List UInt8} {t : Transaction}
    (h : parse limits bytes = .ok t) :
    (∀ cut, cut <+: bytes → cut ≠ bytes → ∃ field, parse limits cut = .error (.truncated field)) ∧
      ∀ extra, extra ≠ [] →
        parse limits (bytes ++ extra) = .error (.trailingBytes extra.length) := by
  simp only [parse, parser_eq_whole] at h ⊢
  exact (stable_contentsParser limits).run_whole h

def pairOnWire : Transaction := ⟨pairBody, .confidential pairSignature.blank, .parsed⟩

theorem parse_toBytes_pairOnWire : parse .standard pairOnWire.toBytes = .ok pairOnWire := by
  have hmixin : uniformMixin pairBody.inputs = .ok 1 := rfl
  exact parse_toBytes rfl ⟨within_pairBody, by decide, (uniformMixin_eq_ok_iff.mp hmixin).1,
    .inr ⟨hasShape_pairSignature.blank, pairSignature.isBlank_blank⟩⟩

/-- Without its last byte the transaction of two inputs is cut short, and of three bytes behind it all
three are left over. -/
theorem parse_of_prefix_pairOnWire : parse .standard pairOnWire.toBytes = .ok pairOnWire ∧
    (∃ field, parse .standard pairOnWire.toBytes.dropLast = .error (.truncated field)) ∧
      parse .standard (pairOnWire.toBytes ++ [0, 0, 0]) = .error (.trailingBytes 3) := by
  obtain ⟨hcut, hextra⟩ := parse_of_prefix parse_toBytes_pairOnWire
  have hshorter : pairOnWire.toBytes.dropLast ≠ pairOnWire.toBytes := by
    intro h
    have hlength := congrArg List.length h
    have hversion := one_le_length_amountBytes pairOnWire.body.version
    simp only [List.length_dropLast, toBytes, Body.toBytes, List.length_append] at hlength
    omega
  exact ⟨parse_toBytes_pairOnWire, hcut _ (List.dropLast_prefix _) hshorter,
    hextra [0, 0, 0] (by decide)⟩

end Transaction
end ConfidentialTx
