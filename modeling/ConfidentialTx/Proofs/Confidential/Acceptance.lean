import ConfidentialTx.Confidential.Verification
import ConfidentialTx.Proofs.Mlsag.Acceptance
import ConfidentialTx.Proofs.Mlsag.Matrix

/-! What it takes for a confidential signature to be accepted: valid range proofs, a balance that
is shown or left to the spend proof, and spend proofs over the right matrices. -/
namespace ConfidentialTx.Confidential

variable {C : KeyGroup}

theorem isOk_eq_true_iff {ρ : Type} {x : Except ρ Unit} : x.isOk = true ↔ x = .ok () := by
  rcases x with r | ⟨⟩ <;> simp [Except.toBool]

theorem map_isOk_eq_ok_true_iff {ρ : Type} {x : Except Error (Except ρ Unit)} :
    x.map Except.isOk = .ok true ↔ x = .ok (.ok ()) := by
  rcases x with e | v
  · simp [Except.map]
  · rcases v with r | u <;> simp [Except.map, Except.toBool]

/-! ## Amounts -/

theorem checkRangesFrom_eq_ok_iff {i : Nat} {coins : List Coin} {ps : List RangeProof}
    (h : coins.length = ps.length) : checkRangesFrom C i coins ps = .ok () ↔
      List.Forall₂ (fun coin p => RangeProof.check C coin.commitment p = .ok ()) coins ps := by
  induction coins generalizing i ps with
  | nil => simp [checkRangesFrom, List.length_eq_zero_iff.mp h.symm]
  | cons coin coins ih =>
    cases ps with
    | nil => cases h
    | cons p ps =>
      have hrest := @ih (i + 1) ps (by simpa using h)
      rw [checkRangesFrom, List.forall₂_cons, ← hrest]
      rcases RangeProof.check C coin.commitment p with cause | ⟨⟩ <;> simp

theorem checkRanges_eq_ok_iff {s : Signature} : checkRanges C s = .ok () ↔
    List.Forall₂ (fun coin p => RangeProof.check C coin.commitment p = .ok ()) s.outputs
      s.rangeProofs := by
  by_cases h : s.outputs.length = s.rangeProofs.length
  · rw [checkRanges, if_neg (not_not.mpr h), checkRangesFrom_eq_ok_iff h]
  · rw [checkRanges, if_pos h]
    exact iff_of_false (by simp) fun hall => h hall.length_eq

theorem outputSum_eq_ok_iff {i : Nat} {sum P : C.Point} {coins : List Coin} :
    outputSum C i sum coins = .ok P ↔ ∃ points,
      HaveCommitments C coins points ∧
        P = Commitment.total C sum points := by
  induction coins generalizing i sum with
  | nil => simp [outputSum, Commitment.total, eq_comm]
  | cons coin coins ih =>
    rw [outputSum]
    cases hQ : C.point? coin.commitment with
    | none => simp [List.forall₂_cons_left_iff, hQ]
    | some Q =>
      simp only [ih, List.forall₂_cons_left_iff, hQ, Option.some.injEq]
      constructor
      · rintro ⟨points, hpoints, rfl⟩
        exact ⟨Q :: points, ⟨Q, points, rfl, hpoints, rfl⟩, rfl⟩
      · rintro ⟨_, ⟨_, points, rfl, hpoints, rfl⟩, rfl⟩
        exact ⟨points, hpoints, rfl⟩

theorem checkSimpleBalance_eq_ok_iff {s : Signature} (hs : s.kind = .simple) :
    checkSimpleBalance C s = .ok () ↔ ∃ pseudos outs,
      s.pseudoOutputs.mapM C.point? = some pseudos ∧
        HaveCommitments C s.outputs outs ∧
          C.pointKey (Commitment.total C C.zero pseudos) =
            C.pointKey (Commitment.total C (Commitment.ofFee C s.fee) outs) ∧
              checkRanges C s = .ok () := by
  rw [checkSimpleBalance, if_neg (not_not.mpr hs)]
  cases hpseudos : s.pseudoOutputs.mapM C.point? with
  | none => simp
  | some pseudos =>
    simp only [Except.bind_eq_ok_iff, outputSum_eq_ok_iff, Option.some.injEq]
    constructor
    · rintro ⟨_, ⟨outs, houts, rfl⟩, h⟩
      split at h
      · cases h
      · rename_i hbalance
        exact ⟨pseudos, outs, rfl, houts, not_not.mp hbalance, h⟩
    · rintro ⟨_, outs, rfl, houts, hbalance, h⟩
      exact ⟨_, ⟨outs, houts, rfl⟩, by rw [if_neg (not_not.mpr hbalance), h]⟩

/-! ## Spend proofs -/

theorem withMatrix_eq_ok_iff {reject : String → Rejection}
    {matrix : Except Error (List (List Key))} {decide : List (List Key) → Except Error Verdict} :
    withMatrix reject matrix decide = .ok (.ok ()) ↔
      ∃ m, matrix = .ok m ∧ decide m = .ok (.ok ()) := by
  simp only [withMatrix]
  split <;> simp

theorem checkFullSpend_eq_ok_iff {s : Signature} : checkFullSpend C s = .ok (.ok ()) ↔
    ∃ proof m, s.spendProofs = [proof] ∧ Mlsag.fullMatrix C s.rings s.outputs s.fee = .ok m ∧
      proof.images.length = (m.headD []).length - 1 ∧
        Mlsag.check C s.signedHash m proof proof.images.length = .ok () := by
  rw [checkFullSpend]
  split
  · rename_i proof hproof
    simp only [withMatrix_eq_ok_iff, hproof, List.cons.injEq, and_true]
    constructor
    · rintro ⟨m, hm, h⟩
      split at h
      · cases h
      · rename_i himages
        rw [not_not] at himages
        rw [← himages] at h
        refine ⟨proof, m, rfl, hm, himages, ?_⟩
        cases hcheck : Mlsag.check C s.signedHash m proof proof.images.length with
        | error r =>
          rw [hcheck] at h
          cases h
        | ok u => rfl
    · rintro ⟨_, m, rfl, hm, himages, h⟩
      refine ⟨m, hm, ?_⟩
      rw [if_neg (not_not.mpr himages), ← himages, h]
      rfl
  · rename_i hproofs
    refine iff_of_false (by simp) ?_
    rintro ⟨proof, -, hproof, -⟩
    exact hproofs proof hproof

/-- The spend proof of an input is valid for the matrix that belongs to the input. -/
def SpendAccepted (C : KeyGroup) (message : Key) (ring : List Coin) (pseudo : Key)
    (proof : Mlsag.Signature) : Prop :=
  ∃ m, Mlsag.simpleMatrix C ring pseudo = .ok m ∧ Mlsag.check C message m proof 1 = .ok ()

theorem checkSpendsFrom_eq_ok_iff {message : Key} {i : Nat} {rings : List (List Coin)}
    {pseudos : List Key} {proofs : List Mlsag.Signature} :
    checkSpendsFrom C message i rings pseudos proofs = .ok (.ok ()) ↔
      ∀ (j : Nat) ring pseudo proof, rings[j]? = some ring → pseudos[j]? = some pseudo →
        proofs[j]? = some proof → SpendAccepted C message ring pseudo proof := by
  induction rings generalizing i pseudos proofs with
  | nil => simp [checkSpendsFrom]
  | cons ring rings ih =>
    rcases pseudos with _ | ⟨pseudo, pseudos⟩
    · simp [checkSpendsFrom]
    rcases proofs with _ | ⟨proof, proofs⟩
    · simp [checkSpendsFrom]
    have hstep : checkSpendsFrom C message i (ring :: rings) (pseudo :: pseudos) (proof :: proofs) =
        .ok (.ok ()) ↔ SpendAccepted C message ring pseudo proof ∧
          checkSpendsFrom C message (i + 1) rings pseudos proofs = .ok (.ok ()) := by
      rw [checkSpendsFrom, withMatrix_eq_ok_iff, SpendAccepted]
      constructor
      · rintro ⟨m, hm, h⟩
        cases hcheck : Mlsag.check C message m proof 1 with
        | error r =>
          rw [hcheck] at h
          cases h
        | ok u =>
          rw [hcheck] at h
          exact ⟨⟨m, hm, hcheck⟩, h⟩
      · rintro ⟨⟨m, hm, hcheck⟩, h⟩
        exact ⟨m, hm, by rw [hcheck]; exact h⟩
    rw [hstep, ih]
    constructor
    · rintro ⟨hhead, htail⟩ j
      cases j with
      | zero => simpa using hhead
      | succ j => simpa using htail j
    · intro h
      exact ⟨h 0 ring pseudo proof rfl rfl rfl, fun j => h (j + 1)⟩

theorem checkSimpleSpends_eq_ok_iff {s : Signature} : checkSimpleSpends C s = .ok (.ok ()) ↔
    s.rings.length = s.pseudoOutputs.length ∧ s.spendProofs.length = s.pseudoOutputs.length ∧
      ∀ (j : Nat) ring pseudo proof, s.rings[j]? = some ring → s.pseudoOutputs[j]? = some pseudo →
        s.spendProofs[j]? = some proof → SpendAccepted C s.signedHash ring pseudo proof := by
  rw [checkSimpleSpends]
  split
  · rename_i hrings
    simp [hrings]
  · rename_i hrings
    split
    · rename_i hproofs
      simp [hproofs]
    · rename_i hproofs
      rw [not_not] at hrings hproofs
      rw [checkSpendsFrom_eq_ok_iff]
      simp [hrings, hproofs]

theorem isBare_eq_false_iff {s : Signature} : s.isBare = false ↔
    s.rings ≠ [] ∧ ∀ proof ∈ s.spendProofs, proof.images ≠ [] := by
  simp [Signature.isBare]

theorem verify_eq_ok_true_iff {s : Signature} : verify C s = .ok true ↔
    checkAmounts C s = .ok () ∧ checkSpends C s = .ok (.ok ()) := by
  rw [verify, map_isOk_eq_ok_true_iff, check]
  rcases checkAmounts C s with r | ⟨⟩ <;> simp

theorem verify_full_iff {s : Signature} (hs : s.kind = .full) : verify C s = .ok true ↔
    checkRanges C s = .ok () ∧ s.isBare = false ∧ checkFullSpend C s = .ok (.ok ()) := by
  simp only [verify_eq_ok_true_iff, checkAmounts, checkSpends, hs, checkFullRanges]
  cases s.isBare <;> simp

theorem verify_simple_iff {s : Signature} (hs : s.kind = .simple) : verify C s = .ok true ↔
    checkSimpleBalance C s = .ok () ∧ s.isBare = false ∧ checkSimpleSpends C s = .ok (.ok ()) := by
  simp only [verify_eq_ok_true_iff, checkAmounts, checkSpends, hs]
  cases s.isBare <;> simp

end ConfidentialTx.Confidential
