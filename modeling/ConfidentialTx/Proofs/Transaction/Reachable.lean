import ConfidentialTx.Proofs.Transaction.Expansion
import ConfidentialTx.Proofs.Transaction.WireFormat

/-! The transactions that can be had: read from bytes or put together from parts, and then expanded
any number of times, with any rings and with or without success. -/
namespace ConfidentialTx.Transaction

open Wire Wire.Parser

inductive Reachable : Transaction → Prop where
  | parsed {limits : Limits} {bytes : List UInt8} {t : Transaction} :
    parse limits bytes = .ok t → Reachable t
  | ofRingSignatures {b : Body} {signatures : List RingSignature} {t : Transaction} :
    ofRingSignatures b signatures = .ok t → Reachable t
  | ofConfidential {b : Body} {s : Confidential.Signature} {t : Transaction} :
    ofConfidential b s = .ok t → Reachable t
  | expanded {t : Transaction} (rings : List (List Coin)) :
    Reachable t → Reachable (t.tryExpand rings)

theorem state_of_parse {limits : Limits} {bytes : List UInt8} {t : Transaction}
    (h : parse limits bytes = .ok t) : t.state = .parsed := by
  rw [parse, run_eq_ok_iff] at h
  simp only [parser, bind_eq_ok_iff, pure_eq_ok_iff] at h
  obtain ⟨r, b, m, -, s, m', -, u, m'', -, rfl, -⟩ := h
  rfl

theorem checkRingSizes_eq_ok_iff {inputs : List Input} {signatures : List RingSignature}
    (h : signatures.length = inputs.length) : checkRingSizes inputs signatures = .ok () ↔
      List.Forall₂ (fun i s => s.size = i.ringSize) inputs signatures := by
  induction inputs generalizing signatures with
  | nil => simp [checkRingSizes, List.length_eq_zero_iff.mp h]
  | cons i inputs ih =>
    obtain ⟨s, signatures, rfl⟩ := List.exists_cons_of_length_eq_add_one h
    rw [checkRingSizes, List.forall₂_cons]
    by_cases hsize : i.ringSize = s.size
    · rw [if_neg (not_not.mpr hsize), ih (by simpa using h)]
      simp [hsize]
    · have hsize' : s.size ≠ i.ringSize := Ne.symm hsize
      simp [hsize, hsize']

theorem ofRingSignatures_eq_ok_iff {b : Body} {signatures : List RingSignature} {t : Transaction} :
    ofRingSignatures b signatures = .ok t ↔ b.version = 1 ∧
      List.Forall₂ (fun i s => s.size = i.ringSize) b.inputs signatures ∧
        t = ⟨b, .ring signatures, .parsed⟩ := by
  rw [ofRingSignatures]
  by_cases hversion : b.version = 1
  · by_cases hlength : signatures.length = b.inputs.length
    · rw [if_neg (not_not.mpr hversion), if_neg (not_not.mpr hlength), Except.bind_eq_ok_iff]
      constructor
      · rintro ⟨⟨⟩, hsizes, h⟩
        cases h
        exact ⟨hversion, (checkRingSizes_eq_ok_iff hlength).mp hsizes, rfl⟩
      · rintro ⟨-, hsizes, rfl⟩
        exact ⟨(), (checkRingSizes_eq_ok_iff hlength).mpr hsizes, rfl⟩
    · rw [if_neg (not_not.mpr hversion), if_pos hlength]
      exact iff_of_false (by simp) fun h => hlength h.2.1.length_eq.symm
  · simp [hversion]

theorem ofConfidential_eq_ok_iff {b : Body} {s : Confidential.Signature} {t : Transaction} :
    ofConfidential b s = .ok t ↔ 2 ≤ b.version ∧
      (s.kind ≠ .null → s.outputs.length = b.outputs.length ∧ UniformRings b.inputs) ∧
        t = ⟨b, .confidential s, .parsed⟩ := by
  rw [ofConfidential, ← UInt64.not_lt]
  by_cases hversion : b.version < 2
  · simp [hversion]
  by_cases hnull : s.kind = .null
  · simp [hversion, hnull, eq_comm]
  by_cases houtputs : s.outputs.length = b.outputs.length
  · simp only [hversion, hnull, houtputs, if_false, ne_eq, not_true, not_false_eq_true, true_and,
      forall_const, Except.bind_eq_ok_iff, uniformMixin_eq_ok_iff]
    constructor
    · rintro ⟨mixin, ⟨huniform, -⟩, h⟩
      cases h
      exact ⟨huniform, rfl⟩
    · rintro ⟨huniform, rfl⟩
      exact ⟨_, ⟨huniform, rfl⟩, rfl⟩
  · simp [hversion, hnull, houtputs]

theorem state_of_ofRingSignatures {b : Body} {signatures : List RingSignature} {t : Transaction}
    (h : Transaction.ofRingSignatures b signatures = .ok t) : t.state = .parsed := by
  obtain ⟨-, -, rfl⟩ := ofRingSignatures_eq_ok_iff.mp h
  rfl

theorem state_of_ofConfidential {b : Body} {s : Confidential.Signature} {t : Transaction}
    (h : Transaction.ofConfidential b s = .ok t) : t.state = .parsed := by
  obtain ⟨-, -, rfl⟩ := ofConfidential_eq_ok_iff.mp h
  rfl

/-- What holds of all transactions that are not expanded, and of what a transaction that has it is
expanded to, holds of all that can be had. -/
theorem Reachable.invariant {P : Transaction → Prop} (hparsed : ∀ t, t.state = .parsed → P t)
    (hstep : ∀ t t' rings, P t → t.expand rings = .ok t' → P t') {t : Transaction}
    (h : Reachable t) : P t := by
  induction h with
  | parsed h => exact hparsed _ (state_of_parse h)
  | ofRingSignatures h => exact hparsed _ (state_of_ofRingSignatures h)
  | ofConfidential h => exact hparsed _ (state_of_ofConfidential h)
  | @expanded t rings _ ih =>
    rw [tryExpand]
    cases hexpand : t.expand rings with
    | error e => exact ih
    | ok t' => exact hstep t t' rings ih hexpand

/-- The key images of the spend proofs are those of the inputs, in their order. -/
def Linked (t : Transaction) : Prop :=
  t.state = .expanded → ∀ s, t.signatures = .confidential s → s.kind ≠ .null →
    t.body.inputs.map Input.keyImage? = (s.spendProofs.flatMap (·.images)).map some

theorem linked_of_expand {t t' : Transaction} {rings : List (List Coin)}
    (h : t.expand rings = .ok t') : t'.Linked := by
  intro _ s hs hnull
  rcases expand_cases h with ⟨hall, rfl⟩ | ⟨s₀, s', -, -, hs', rfl⟩
  · exact absurd (hall s hs) hnull
  · cases hs
    obtain ⟨images, mixin, spends, himages, -, -, -, -, hspends, rfl⟩ :=
      expandSignature_eq_ok_iff.mp hs'
    simp only [flatMap_images_of_expandSpends hspends]
    exact keyImages_eq_ok_iff.mp himages

theorem Reachable.linked {t : Transaction} (h : Reachable t) : t.Linked := by
  apply h.invariant
  · intro t ht hexpanded
    rw [ht] at hexpanded
    cases hexpanded
  · intro t t' rings _ h
    exact linked_of_expand h

end ConfidentialTx.Transaction
