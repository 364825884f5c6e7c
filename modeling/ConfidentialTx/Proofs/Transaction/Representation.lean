import ConfidentialTx.Proofs.Transaction.History
import ConfidentialTx.Proofs.Transaction.Reachable
import ConfidentialTx.Proofs.Transaction.Verdict
import ConfidentialTx.Transaction.Lookup

/-! What holds of every transaction that can be had. Its signatures go with its body, and what was
filled in by an expansion goes with both, whatever was attempted before and after. -/
namespace ConfidentialTx.Transaction

variable {b : Body} {s s' : Confidential.Signature} {rings : List (List Coin)}

/-! ## The invariant -/

/-- The version of a body tells the sort of its signatures. There is a ring signature for every input,
of the size of its ring. Where amounts are hidden there is a coin for every output, and all rings have
one size. -/
def Signatures.Belong (b : Body) : Signatures → Prop
  | ring signatures => b.version = 1 ∧
      List.Forall₂ (fun i s => s.size = i.ringSize) b.inputs signatures
  | confidential s => 2 ≤ b.version ∧
      (s.kind ≠ .null → s.outputs.length = b.outputs.length ∧ UniformRings b.inputs)

/-- What the wire leaves out of a signature has been filled in from a body and from rings of the sizes
that its inputs ask for. -/
structure Filled (b : Body) (s : Confidential.Signature) : Prop where
  spends : ∀ i ∈ b.inputs, i.keyImage?.isSome = true
  message : s.message = b.hash
  destinations : s.outputs.map (·.destination) = b.outputs.map (·.key)
  images : ∃ images, b.inputs.map Input.keyImage? = images.map some ∧
    s.spendProofs.map (·.images) =
      if s.kind = .full then [images] else images.map fun image => [image]
  rings : ∃ rings, List.Forall₂ (fun i ring => ring.length = i.ringSize) b.inputs rings ∧
    if s.kind = .full then Transposed rings s.rings (ringSize b.inputs) else s.rings = rings

/-- The signatures go with the body, and an expanded transaction has all filled in that its signature
needs. -/
structure Consistent (t : Transaction) : Prop where
  signatures : t.signatures.Belong t.body
  filled : t.state = .expanded → ∀ s, t.signatures = .confidential s → s.kind ≠ .null →
    Filled t.body s

/-! ## New transactions -/

theorem Consistent.of_parsed {t : Transaction} (hstate : t.state = .parsed)
    (h : t.signatures.Belong t.body) : t.Consistent where
  signatures := h
  filled hexpanded := by
    rw [hstate] at hexpanded
    cases hexpanded

theorem Signatures.WireShaped.belong {ss : Signatures} (h : ss.WireShaped b) : ss.Belong b := by
  cases ss with
  | ring signatures => exact h
  | confidential s =>
    obtain ⟨hversion, huniform, hshape⟩ := h
    refine ⟨hversion, fun hkind => ⟨?_, huniform⟩⟩
    rcases hshape with rfl | ⟨hshape, -⟩
    · exact absurd rfl hkind
    · exact hshape.length_outputs

theorem consistent_of_parse {limits : Wire.Limits} {bytes : List UInt8} {t : Transaction}
    (h : parse limits bytes = .ok t) : t.Consistent :=
  .of_parsed (state_of_parse h) (wireShaped_of_parse h).belong

theorem consistent_of_ofRingSignatures {signatures : List RingSignature} {t : Transaction}
    (h : ofRingSignatures b signatures = .ok t) : t.Consistent := by
  obtain ⟨hversion, hsizes, rfl⟩ := ofRingSignatures_eq_ok_iff.mp h
  exact .of_parsed rfl ⟨hversion, hsizes⟩

theorem consistent_of_ofConfidential {t : Transaction} (h : ofConfidential b s = .ok t) :
    t.Consistent := by
  obtain ⟨hversion, hshape, rfl⟩ := ofConfidential_eq_ok_iff.mp h
  exact .of_parsed rfl ⟨hversion, hshape⟩

/-! ## Expansion -/

theorem length_of_mem_rings {inputs : List Input} (hspend : ∀ i ∈ inputs, i.keyImage?.isSome = true)
    (huniform : UniformRings inputs)
    (h : List.Forall₂ (fun i ring => ring.length = i.ringSize) inputs rings) :
    ∀ ring ∈ rings, ring.length = ringSize inputs := by
  intro ring hring
  obtain ⟨n, hn⟩ := List.mem_iff_getElem?.mp hring
  obtain ⟨i, hi, hsize⟩ := exists_getElem?_of_forall₂ h hn
  have hmem := List.mem_of_getElem? hi
  rw [hsize, huniform i hmem (hspend i hmem)]

theorem transposed_byMember {size : ℕ} (h : ∀ ring ∈ rings, ring.length = size) :
    Transposed rings (byMember size rings) size where
  length_columns := by simp [byMember]
  length_column := by simp [byMember]
  entry i j := by
    cases hj : rings[j]? with
    | none =>
      have hcolumn : ∀ column ∈ (byMember size rings)[i]?, column[j]? = none := by
        simp only [byMember, List.getElem?_map, Option.mem_def, Option.map_eq_some_iff]
        rintro column ⟨member, -, rfl⟩
        rw [List.getElem?_map, hj, Option.map_none]
      cases hi : (byMember size rings)[i]? with
      | none => rfl
      | some column => exact hcolumn column hi
    | some ring =>
      have hring := h ring (List.mem_of_getElem? hj)
      rw [Option.bind_some]
      by_cases hi : i < size
      · have hmember : i < ring.length := hring ▸ hi
        simp [byMember, hi, hj, List.getD_eq_getElem?_getD, List.getElem?_eq_getElem hmember]
      · have hmember : ring.length ≤ i := hring ▸ Nat.le_of_not_lt hi
        simp [byMember, hi, List.getElem?_eq_none hmember]

theorem filled_of_expandSignature (h : expandSignature b s rings = .ok s') : Filled b s' := by
  obtain ⟨images, mixin, spends, himages, hmixin, hcount, hsizes, houtputs, hspends, rfl⟩ :=
    expandSignature_eq_ok_iff.mp h
  have himages' := keyImages_eq_ok_iff.mp himages
  have hspend := isSome_of_map_keyImage? himages'
  have hrings := (checkRings_eq_ok_iff hcount).mp hsizes
  refine ⟨hspend, rfl, map_zipWith_right houtputs fun _ _ => rfl, ⟨images, himages', ?_⟩,
    ⟨rings, hrings, ?_⟩⟩
  · rcases expandSpends_cases hspends with ⟨hfull, proof, -, rfl⟩ | ⟨hkind, hlength, rfl⟩
    · rw [if_pos hfull]
      rfl
    · rw [if_neg hkind, map_images_zipWith hlength]
  · rcases expandSpends_cases hspends with ⟨hfull, proof, -, rfl⟩ | ⟨hkind, hlength, rfl⟩
    · have huniform := (uniformMixin_eq_ok_iff.mp hmixin).1
      rw [if_pos hfull, length_headD_rings hspend hrings]
      exact transposed_byMember (length_of_mem_rings hspend huniform hrings)
    · rw [if_neg hkind]

theorem length_outputs_of_expandSignature (h : expandSignature b s rings = .ok s') :
    s'.outputs.length = s.outputs.length := by
  obtain ⟨images, mixin, spends, -, -, -, -, houtputs, -, rfl⟩ := expandSignature_eq_ok_iff.mp h
  simp [withDestinations, houtputs]

theorem Consistent.expand {t t' : Transaction} (h : t.Consistent)
    (hexpand : t.expand rings = .ok t') : t'.Consistent := by
  rcases expand_cases hexpand with ⟨hnull, rfl⟩ | ⟨s, s', hs, hkind, hs', rfl⟩
  · exact ⟨h.signatures, fun _ s hs hkind => absurd (hnull s hs) hkind⟩
  · constructor
    · obtain ⟨hversion, hshape⟩ : 2 ≤ t.body.version ∧ (s.kind ≠ .null → _ ∧ _) := hs ▸ h.signatures
      refine ⟨hversion, fun _ => ?_⟩
      rw [length_outputs_of_expandSignature hs']
      exact hshape hkind
    · intro _ _ hs'' _
      cases hs''
      exact filled_of_expandSignature hs'

theorem Consistent.tryExpand {t : Transaction} (h : t.Consistent) (rings : List (List Coin)) :
    (t.tryExpand rings).Consistent := by
  rw [Transaction.tryExpand]
  cases hexpand : t.expand rings with
  | error e => exact h
  | ok t' => exact h.expand hexpand

theorem Reachable.consistent {t : Transaction} (h : Reachable t) : t.Consistent := by
  induction h with
  | parsed h => exact consistent_of_parse h
  | ofRingSignatures h => exact consistent_of_ofRingSignatures h
  | ofConfidential h => exact consistent_of_ofConfidential h
  | expanded rings _ ih => exact ih.tryExpand rings

/-! ## Positions -/

theorem byMember?_eq_some {size : ℕ} (h : ∀ ring ∈ rings, ring.length = size) :
    byMember? size rings = some (byMember size rings) := by
  refine Option.mapM_eq_some_map fun member hmember => Option.mapM_eq_some_map fun ring hring => ?_
  have hlength : member < ring.length := h ring hring ▸ List.mem_range.mp hmember
  rw [List.getElem?_eq_getElem hlength, List.getD_eq_getElem?_getD, List.getElem?_eq_getElem hlength]
  rfl

/-- Going through inputs, rings and signatures side by side is looking them up by number. -/
theorem checkRingSignaturesAt_eq_some {C : KeyGroup} {message : Digest} {rings : List (List Key)}
    {signatures : List RingSignature} {i : ℕ} {inputs : List Input}
    (hrings : rings.length = i + inputs.length)
    (hsignatures : signatures.length = i + inputs.length) :
    checkRingSignaturesAt C message rings signatures i inputs =
      some (checkRingSignaturesFrom C message i inputs (rings.drop i) (signatures.drop i)) := by
  induction inputs generalizing i with
  | nil => simp [checkRingSignaturesAt, checkRingSignaturesFrom]
  | cons input inputs ih =>
    rw [List.length_cons] at hrings hsignatures
    have hring : i < rings.length := by omega
    have hsignature : i < signatures.length := by omega
    have hrest := ih (i := i + 1) (by omega) (by omega)
    rw [checkRingSignaturesAt, List.drop_eq_getElem_cons hring, List.drop_eq_getElem_cons hsignature,
      checkRingSignaturesFrom, List.getElem?_eq_getElem hring, List.getElem?_eq_getElem hsignature,
      hrest]
    cases input.keyImage? with
    | none => rfl
    | some image =>
      simp only
      cases RingSignature.check C message image rings[i] signatures[i] <;> rfl

theorem length_of_expand {t t' : Transaction} (hs : t.signatures = .confidential s)
    (hfull : s.kind = .full) (h : t.expand rings = .ok t') :
    s.spendProofs.length = 1 ∧ ∀ ring ∈ rings, ring.length = (rings.headD []).length := by
  rcases expand_cases h with ⟨hnull, -⟩ | ⟨s₀, s', hs₀, -, hs', -⟩
  · rw [hnull s hs] at hfull
    cases hfull
  obtain rfl : s = s₀ := Signatures.confidential.inj (hs.symm.trans hs₀)
  obtain ⟨images, mixin, spends, himages, hmixin, hcount, hsizes, -, hspends, rfl⟩ :=
    expandSignature_eq_ok_iff.mp hs'
  have hspend := isSome_of_map_keyImage? (keyImages_eq_ok_iff.mp himages)
  have hrings := (checkRings_eq_ok_iff hcount).mp hsizes
  constructor
  · rcases expandSpends_cases hspends with ⟨-, proof, hproof, -⟩ | ⟨hkind, -, -⟩
    · rw [hproof]
      rfl
    · exact absurd hfull hkind
  · rw [length_headD_rings hspend hrings]
    exact length_of_mem_rings hspend (uniformMixin_eq_ok_iff.mp hmixin).1 hrings

/-! ## All transactions that can be had -/

theorem Consistent.isSome_ringSignatures?_iff {t : Transaction} (h : t.Consistent) :
    t.ringSignatures?.isSome = true ↔ t.body.version = 1 := by
  have hbelong := h.signatures
  cases hs : t.signatures with
  | ring signatures =>
    rw [hs] at hbelong
    simp [ringSignatures?, hs, hbelong.1]
  | confidential s =>
    rw [hs] at hbelong
    have hversion : t.body.version ≠ 1 := by
      intro hone
      exact absurd (hone ▸ hbelong.1) (by decide)
    simp [ringSignatures?, hs, hversion]

theorem Consistent.isSome_confidential?_iff {t : Transaction} (h : t.Consistent) :
    t.confidential?.isSome = true ↔ 2 ≤ t.body.version := by
  have hbelong := h.signatures
  cases hs : t.signatures with
  | ring signatures =>
    rw [hs] at hbelong
    simp [confidential?, hs, hbelong.1]
  | confidential s =>
    rw [hs] at hbelong
    simp [confidential?, hs, hbelong.1]

theorem verifyConfidential_of_parsed {C : KeyGroup} {t : Transaction}
    (hs : t.signatures = .confidential s) (hkind : s.kind ≠ .null) (hstate : t.state = .parsed) :
    t.verifyConfidential C = .error .notExpanded := by
  have hstate' : t.state ≠ .expanded := by simp [hstate]
  simp only [verifyConfidential, checkConfidential, hs, if_neg hkind, if_pos hstate']
  rfl

/-- A transaction that was read or put together, and then expanded any number of times with any rings
and with or without success, has signatures that go with its body, ring signatures with version 1 and a
confidential one with any later version. Where it is expanded, all is filled in from its body and from
rings that its inputs ask for; where it is not and has hidden amounts, it gets no verdict. And whatever
is looked up by position while it is verified or expanded is there. -/
theorem Reachable.represented {t : Transaction} (h : Reachable t) :
    t.Consistent ∧ (t.ringSignatures?.isSome = true ↔ t.body.version = 1) ∧
      (t.confidential?.isSome = true ↔ 2 ≤ t.body.version) ∧
      (∀ C s, t.signatures = .confidential s → s.kind ≠ .null → t.state = .parsed →
        t.verifyConfidential C = .error .notExpanded) ∧
      (∀ C signatures keys, t.signatures = .ring signatures →
        keys.length = t.body.inputs.length →
          checkRingSignaturesAt C t.body.hash keys signatures 0 t.body.inputs =
            some (checkRingSignaturesFrom C t.body.hash 0 t.body.inputs keys signatures)) ∧
      ∀ s rings t', t.signatures = .confidential s → s.kind = .full → t.expand rings = .ok t' →
        s.spendProofs.length = 1 ∧ byMember? (rings.headD []).length rings =
          some (byMember (rings.headD []).length rings) := by
  have hconsistent := h.consistent
  refine ⟨hconsistent, hconsistent.isSome_ringSignatures?_iff, hconsistent.isSome_confidential?_iff,
    fun C s hs hkind hstate => verifyConfidential_of_parsed hs hkind hstate, ?_, ?_⟩
  · intro C signatures keys hs hkeys
    obtain ⟨-, hsizes⟩ : t.body.version = 1 ∧ List.Forall₂ _ _ signatures :=
      hs ▸ hconsistent.signatures
    have hlength := hsizes.length_eq.symm
    rw [checkRingSignaturesAt_eq_some (by omega) (by omega), List.drop_zero, List.drop_zero]
  · intro s rings t' hs hfull hexpand
    obtain ⟨hproofs, hrings⟩ := length_of_expand hs hfull hexpand
    exact ⟨hproofs, byMember?_eq_some hrings⟩

/-- Made with wrong values, and expanded with the wrong rings, with the right ones and then, in vain,
with none, the transaction of two inputs has all filled in. -/
theorem represented_pair :
    Reachable (pairMade.tryExpandAll [pairRings.reverse, pairRings, []]) ∧
      Filled pairBody { pairSignature with
        maskedAmounts := [⟨.replicate 32 4, .replicate 32 5, .replicate 32 8⟩] } := by
  have hok : ofConfidential pairBody (pairMade.confidential?.getD .null) = .ok pairMade := rfl
  have hmade : Reachable pairMade := .ofConfidential hok
  have hreachable : Reachable (pairMade.tryExpandAll [pairRings.reverse, pairRings, []]) :=
    ((hmade.expanded pairRings.reverse).expanded pairRings).expanded []
  exact ⟨hreachable, hreachable.represented.1.filled rfl _ rfl (by decide)⟩

end ConfidentialTx.Transaction
