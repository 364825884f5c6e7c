import ConfidentialTx.Proofs.Confidential.Acceptance
import ConfidentialTx.Proofs.Transaction.Representation
import ConfidentialTx.Proofs.Transaction.Verdict
import ConfidentialTx.Residue.Group

/-! Verdicts about ring signatures. Inputs, the rings that are listed for them and their signatures are
gone through side by side, so the ring and the signature of an input are those at its own place, however
many inputs without a ring stand before it. -/
namespace ConfidentialTx

variable {C : KeyGroup}

/-- A signature is valid for a ring of its own size only, and never for an empty one. -/
theorem RingSignature.ring_of_verify {message : Digest} {image : Key} {ring : List Key}
    {s : RingSignature} (h : verify C message image ring s = true) :
    ring.length = s.size ∧ ring ≠ [] := by
  obtain ⟨⟨⟩, h⟩ := Except.exists_eq_ok h
  rw [check, Except.ite_error_eq_ok_iff] at h
  exact ⟨not_not.mp (not_or.mp h.1).1, (not_or.mp h.1).2⟩

namespace Transaction

theorem checkRingSignaturesFrom_eq_ok_iff {message : Digest} {i : ℕ} {inputs : List Input}
    {rings : List (List Key)} {signatures : List RingSignature} :
    checkRingSignaturesFrom C message i inputs rings signatures = .ok () ↔
      ∀ (j : ℕ) input image ring s, inputs[j]? = some input → input.keyImage? = some image →
        rings[j]? = some ring → signatures[j]? = some s →
          RingSignature.verify C message image ring s = true := by
  induction inputs generalizing i rings signatures with
  | nil => simp [checkRingSignaturesFrom]
  | cons input inputs ih =>
    rcases rings with _ | ⟨ring, rings⟩
    · simp [checkRingSignaturesFrom]
    rcases signatures with _ | ⟨s, signatures⟩
    · simp [checkRingSignaturesFrom]
    have hstep : checkRingSignaturesFrom C message i (input :: inputs) (ring :: rings)
        (s :: signatures) = .ok () ↔
          (∀ image, input.keyImage? = some image →
            RingSignature.verify C message image ring s = true) ∧
          checkRingSignaturesFrom C message (i + 1) inputs rings signatures = .ok () := by
      rw [checkRingSignaturesFrom]
      cases input.keyImage? with
      | none =>
        simp
      | some image =>
        simp only [RingSignature.verify, Option.some.injEq, forall_eq']
        cases RingSignature.check C message image ring s <;> simp [Except.isOk, Except.toBool]
    rw [hstep, ih]
    constructor
    · rintro ⟨hhead, htail⟩ j
      cases j with
      | zero =>
        rintro _ image _ _ ⟨⟩ himage ⟨⟩ ⟨⟩
        exact hhead image himage
      | succ j => exact htail j
    · intro h
      exact ⟨fun image himage => h 0 input image ring s rfl himage rfl rfl, fun j => h (j + 1)⟩

/-- Rings that are listed for the same inputs, and for those with a key image are the same. -/
def SameRings (inputs : List Input) (rings rings' : List (List Key)) : Prop :=
  rings.length = rings'.length ∧ ∀ (i : ℕ) input, inputs[i]? = some input →
    input.keyImage?.isSome = true → rings[i]? = rings'[i]?

theorem checkRingSignaturesFrom_congr {message : Digest} {i : ℕ} {inputs : List Input}
    {rings rings' : List (List Key)} {signatures : List RingSignature}
    (h : SameRings inputs rings rings') :
    checkRingSignaturesFrom C message i inputs rings signatures =
      checkRingSignaturesFrom C message i inputs rings' signatures := by
  induction inputs generalizing i rings rings' signatures with
  | nil => simp [checkRingSignaturesFrom]
  | cons input inputs ih =>
    obtain ⟨hlength, hsame⟩ := h
    rcases rings with _ | ⟨ring, rings⟩ <;> rcases rings' with _ | ⟨ring', rings'⟩
    · rfl
    · cases hlength
    · cases hlength
    rcases signatures with _ | ⟨s, signatures⟩
    · simp [checkRingSignaturesFrom]
    have hrest : SameRings inputs rings rings' :=
      ⟨Nat.succ.inj hlength, fun j input' hinput => hsame (j + 1) input' hinput⟩
    rw [checkRingSignaturesFrom, checkRingSignaturesFrom, ih hrest]
    cases himage : input.keyImage? with
    | none => rfl
    | some image =>
      have hring := hsame 0 input rfl (by rw [himage]; rfl)
      rw [List.getElem?_cons_zero, List.getElem?_cons_zero, Option.some.injEq] at hring
      rw [hring]

/-- Every input that spends an output has ring members listed for it, as many as it has offsets, and its
signature over the body is one by one of them with the key image of the input. -/
def RingSigned (C : KeyGroup) (t : Transaction) (rings : List (List Key)) : Prop :=
  ∃ signatures, t.ringSignatures? = some signatures ∧ rings.length = t.body.inputs.length ∧
    ∀ (i : ℕ) amount offsets image, t.body.inputs[i]? = some (.spend amount offsets image) →
      ∃ ring s, rings[i]? = some ring ∧ signatures[i]? = some s ∧ ring ≠ [] ∧
        ring.length = offsets.length ∧ RingSignature.verify C t.body.hash image ring s = true

theorem Consistent.verifyRingSignatures_eq_ok_true_iff {t : Transaction} (h : t.Consistent)
    {rings : List (List Key)} :
    t.verifyRingSignatures C rings = .ok true ↔ t.RingSigned C rings := by
  have hbelong := h.signatures
  rw [verifyRingSignatures, Confidential.map_isOk_eq_ok_true_iff, checkRingSignatures, RingSigned,
    ringSignatures?]
  cases hs : t.signatures with
  | confidential s => simp
  | ring signatures =>
    obtain ⟨-, hsizes⟩ : t.body.version = 1 ∧ List.Forall₂ _ _ signatures := hs ▸ hbelong
    by_cases hlength : rings.length = t.body.inputs.length
    · simp only [hlength, ne_eq, not_true, if_false, Option.some.injEq, exists_eq_left', true_and,
        Except.ok.injEq, checkRingSignaturesFrom_eq_ok_iff]
      constructor
      · intro hall i amount offsets image hinput
        obtain ⟨s, hsignature, hsize⟩ := exists_getElem?_of_forall₂ hsizes.flip hinput
        have hi : i < rings.length := hlength ▸ (List.getElem?_eq_some_iff.mp hinput).1
        have hring : rings[i]? = some rings[i] := List.getElem?_eq_getElem hi
        have hverify := hall i _ image rings[i] s hinput rfl hring hsignature
        obtain ⟨hsame, hne⟩ := RingSignature.ring_of_verify hverify
        exact ⟨_, s, hring, hsignature, hne, hsame.trans hsize, hverify⟩
      · intro hall i input image ring s hinput himage hring hsignature
        cases input with
        | coinbase height => cases himage
        | spend amount offsets image' =>
          cases himage
          obtain ⟨ring', s', hring', hs', -, -, hverify⟩ := hall i amount offsets image hinput
          cases hring.symm.trans hring'
          cases hsignature.symm.trans hs'
          exact hverify
    · simp [hlength]

theorem checkRingSignatures_congr {t : Transaction} {rings rings' : List (List Key)}
    (h : SameRings t.body.inputs rings rings') :
    t.checkRingSignatures C rings = t.checkRingSignatures C rings' := by
  cases hs : t.signatures with
  | confidential s => simp only [checkRingSignatures, hs]
  | ring signatures =>
    simp only [checkRingSignatures, hs, h.1, checkRingSignaturesFrom_congr h]

/-- There is no verdict without ring signatures or without a ring for every input. -/
theorem Consistent.verifyRingSignatures_eq_error_iff {t : Transaction} (h : t.Consistent)
    {rings : List (List Key)} {e : Error} :
    t.verifyRingSignatures C rings = .error e ↔
      (t.body.version ≠ 1 ∧ e = .invalidArgument "not a version 1 transaction") ∨
      (t.body.version = 1 ∧ rings.length ≠ t.body.inputs.length ∧
        e = .shapeMismatch "ring public keys" t.body.inputs.length rings.length) := by
  rw [verifyRingSignatures, map_eq_error_iff, checkRingSignatures]
  cases hs : t.signatures with
  | confidential s =>
    have hversion : t.body.version ≠ 1 := fun hone => by
      simpa [ringSignatures?, hs] using h.isSome_ringSignatures?_iff.mpr hone
    simp [hversion, eq_comm]
  | ring signatures =>
    have hversion : t.body.version = 1 :=
      h.isSome_ringSignatures?_iff.mp (by rw [ringSignatures?, hs]; rfl)
    by_cases hlength : rings.length = t.body.inputs.length
    · simp [hlength, hversion]
    · simp [hlength, hversion, eq_comm]

/-- A transaction that was read or put together, and then expanded any number of times, has valid ring
signatures exactly if every input that spends an output is signed for by a member of its ring. What is
listed for other inputs has no part in it, and there is a verdict for every transaction of version 1 and
a ring for each of its inputs. -/
theorem Reachable.verdict_of_ringSignatures {t : Transaction} (h : Reachable t)
    (rings : List (List Key)) :
    (t.verifyRingSignatures C rings = .ok true ↔ t.RingSigned C rings) ∧
      (∀ rings', SameRings t.body.inputs rings rings' →
        t.verifyRingSignatures C rings = t.verifyRingSignatures C rings') ∧
      ∀ e, t.verifyRingSignatures C rings = .error e ↔
        (t.body.version ≠ 1 ∧ e = .invalidArgument "not a version 1 transaction") ∨
        (t.body.version = 1 ∧ rings.length ≠ t.body.inputs.length ∧
          e = .shapeMismatch "ring public keys" t.body.inputs.length rings.length) := by
  refine ⟨h.consistent.verifyRingSignatures_eq_ok_true_iff, fun rings' hsame => ?_, fun e => ?_⟩
  · rw [verifyRingSignatures, verifyRingSignatures, checkRingSignatures_congr hsame]
  · exact h.consistent.verifyRingSignatures_eq_error_iff

/-- A reward and, after it, an input of two ring members. -/
def minedBody : Body := ⟨1, 0, [.coinbase 7, .spend 0 [5, 1] .zero], [], []⟩

def residueKey (n : ℕ) : Key := Residue.group.scalarKey (Residue.ofNat Residue.order_pos n)

/-- For the ring of five and zero: the challenges add up to the digest of the body and the points. -/
def minedSignatures : List RingSignature :=
  [⟨[]⟩, ⟨[⟨residueKey 2, residueKey 4⟩, ⟨residueKey 1966261457315929670, residueKey 3⟩]⟩]

def mined : Transaction := ⟨minedBody, .ring minedSignatures, .parsed⟩

/-- After a reward, for which any keys may be listed, the ring of the next input is found at the place of
that input, also when the transaction was expanded in vain before. -/
theorem verdict_of_ringSignatures_mined :
    Reachable (mined.tryExpand []) ∧
      (mined.tryExpand []).RingSigned Residue.group [[], [residueKey 5, .zero]] ∧
      (mined.tryExpand []).verifyRingSignatures Residue.group [[.zero], [residueKey 5, .zero]] =
        .ok true := by
  have hmade : ofRingSignatures minedBody minedSignatures = .ok mined := rfl
  have h : Reachable (mined.tryExpand []) := (Reachable.ofRingSignatures hmade).expanded []
  have haccepted : (mined.tryExpand []).verifyRingSignatures Residue.group
      [[], [residueKey 5, .zero]] = .ok true := by
    decide +kernel
  have hsame : SameRings (mined.tryExpand []).body.inputs [[], [residueKey 5, .zero]]
      [[.zero], [residueKey 5, .zero]] := by
    refine ⟨rfl, fun i input hinput himage => ?_⟩
    match i, hinput with
    | 0, rfl => cases himage
    | _ + 1, _ => rfl
  obtain ⟨hsigned, hcongr, -⟩ :=
    h.verdict_of_ringSignatures (C := Residue.group) [[], [residueKey 5, .zero]]
  exact ⟨h, hsigned.mp haccepted, (hcongr _ hsame).symm.trans haccepted⟩

end Transaction
end ConfidentialTx
