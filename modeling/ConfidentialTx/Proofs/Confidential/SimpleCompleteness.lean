import ConfidentialTx.Proofs.Confidential.Payments
import ConfidentialTx.Proofs.Group.Residue
import ConfidentialTx.Proofs.Mlsag.Completeness
import ConfidentialTx.Proofs.Mlsag.Matrix

/-! Simple signatures are accepted if they were made by the owners of the coins. A pseudo output
commits to the amount of its coin anew, so the difference of the two is a public key whose secret
the signer knows. -/
namespace ConfidentialTx.Confidential

open KeyGroup.ScalarAction KeyGroup.Lawful Commitment

variable {C : KeyGroup}

theorem checkSimple_eq_ok_iff {rings : List (List Coin)} {indices : List ℕ}
    {spent : List (Spent C)} {payments : List Payment} {fee : UInt64} :
    checkSimple C rings indices spent payments fee = .ok () ↔ spent ≠ [] ∧
      rings.length = spent.length ∧ indices.length = spent.length ∧
        (∀ r ∈ rings.zip indices, r.2 < r.1.length) ∧ Balanced spent payments fee := by
  have hindices : (∀ r ∈ rings.zip indices, r.2 < r.1.length) ↔
      ¬ ((rings.zip indices).any fun r => r.1.length ≤ r.2) = true := by
    simp
  rw [checkSimple, Except.ite_error_eq_ok_iff, Except.ite_error_eq_ok_iff,
    Except.ite_error_eq_ok_iff, Except.ite_error_eq_ok_iff, checkBalance_eq_ok_iff,
    List.isEmpty_iff, not_not, not_not, hindices]

theorem map_spends {rings : List (List Coin)} {indices : List ℕ} {spent : List (Spent C)}
    {masks : List C.Scalar} (hrings : rings.length = spent.length)
    (hindices : indices.length = spent.length) (hmasks : masks.length = spent.length)
    {spends : List (Spend C)} (hspends : spends = (rings.zip (indices.zip (spent.zip masks))).map
      fun x => ⟨x.1, x.2.1, x.2.2.1, x.2.2.2⟩) :
    spends.map (·.ring) = rings ∧ spends.map (·.index) = indices ∧ spends.map (·.spent) = spent ∧
      spends.map (·.pseudoMask) = masks := by
  subst hspends
  induction spent generalizing rings indices masks with
  | nil =>
    rw [List.length_nil, List.length_eq_zero_iff] at hrings hindices hmasks
    simp [hrings, hindices, hmasks]
  | cons x spent ih =>
    obtain ⟨ring, rings, rfl⟩ := List.exists_cons_of_length_eq_add_one hrings
    obtain ⟨index, indices, rfl⟩ := List.exists_cons_of_length_eq_add_one hindices
    obtain ⟨mask, masks, rfl⟩ := List.exists_cons_of_length_eq_add_one hmasks
    have h := ih (by simpa using hrings) (by simpa using hindices) (by simpa using hmasks)
    simpa using h

theorem length_of_drawPseudoMasks {inputs : ℕ} {total : C.Scalar} {masks : List C.Scalar}
    (h : (drawPseudoMasks C inputs total).Yields masks) : masks.length = inputs - 1 + 1 := by
  obtain ⟨drawn, hdrawn, h⟩ := h.of_bind
  rw [Draw.yields_pure_iff.mp h]
  simp [hdrawn.length_scalars]

theorem of_signSimple {message : Key} {rings : List (List Coin)} {indices : List ℕ}
    {spent : List (Spent C)} {payments : List Payment} {fee : UInt64} {s : Signature}
    (h : (signSimple C message rings indices spent payments fee).Yields s) :
    checkSimple C rings indices spent payments fee = .ok () ∧ ∃ paid spends proofs,
      List.Forall₂ (fun payment p => (pay C payment).Yields p) payments paid ∧
        (drawPseudoMasks C spent.length (sumScalars C (paid.map (·.mask)))).Yields
            (spends.map (·.pseudoMask)) ∧
          spends.map (·.ring) = rings ∧ spends.map (·.index) = indices ∧
            spends.map (·.spent) = spent ∧
              List.Forall₂ (fun x proof => (x.sign C s.signedHash).Yields proof) spends proofs ∧
                s = { unsigned C .simple message rings (spends.map (Spend.pseudoOutput C)) fee paid
                  with spendProofs := proofs } := by
  obtain ⟨u, hcheck, h⟩ := h.of_bind
  obtain ⟨paid, hpaid, h⟩ := h.of_bind
  obtain ⟨masks, hmasks, h⟩ := h.of_bind
  obtain ⟨proofs, hproofs, h⟩ := h.of_bind
  obtain ⟨hne, hrings, hindices, -⟩ := checkSimple_eq_ok_iff.mp hcheck.of_lift
  have hpos := List.length_pos_iff.mpr hne
  have hlength := length_of_drawPseudoMasks hmasks
  generalize hspends : (rings.zip (indices.zip (spent.zip masks))).map _ = spends at *
  obtain ⟨hring, hindex, hspent, hmask⟩ := map_spends hrings hindices (by omega) hspends.symm
  rw [← hmask] at hmasks
  have hs := Draw.yields_pure_iff.mp h
  refine ⟨hcheck.of_lift, paid, spends, proofs, hpaid.of_mapM, hmasks, hring, hindex, hspent, ?_, hs⟩
  -- The signed hash does not look at the spend proofs, so it is the one they were made for.
  rw [hs]
  exact hproofs.of_mapM

variable [KeyGroup.Lawful C]

theorem sum_of_drawPseudoMasks {inputs : ℕ} {total : C.Scalar} {masks : List C.Scalar}
    (h : (drawPseudoMasks C inputs total).Yields masks) :
    (masks.map residue).sum = residue total := by
  obtain ⟨drawn, -, h⟩ := h.of_bind
  rw [Draw.yields_pure_iff.mp h]
  simp [residue_foldl_sub]

theorem spendAccepted_of_sign {message : Key} {x : Spend C} {proof : Mlsag.Signature}
    (hown : ∀ coin, x.ring[x.index]? = some coin → x.spent.Owns coin)
    (h : (x.sign C message).Yields proof) :
    proof.images.length = 1 ∧ SpendAccepted C message x.ring (x.pseudoOutput C) proof := by
  obtain ⟨m, hm, h⟩ := h.of_bind
  obtain ⟨pseudo, hpseudo, hcolumns⟩ := Mlsag.simpleMatrix_eq_ok_iff.mp hm.of_lift
  rw [Spend.pseudoOutput, point?_pointKey, Option.some.injEq] at hpseudo
  have hkeys : ∀ keys, m[x.index]? = some keys →
      Mlsag.OwnsKeys C [x.spent.secret, C.scalarSub x.spent.mask x.pseudoMask] keys := by
    intro keys hkeys
    obtain ⟨coin, hcoin, P, hP, rfl⟩ := exists_getElem?_of_forall₂ hcolumns hkeys
    obtain ⟨hdestination, hcommitment⟩ := hown coin hcoin
    rw [hcommitment, Option.some.injEq] at hP
    refine .cons hdestination (.cons ?_ .nil)
    rw [point?_pointKey, sub_eq, ← hP, ← hpseudo, commit_eq_opening, commit_eq_opening, opening_sub,
      smulBase_eq_opening, residue_sub]
  obtain ⟨himages, hcheck⟩ := Mlsag.check_sign h hkeys
  exact ⟨himages, m, hm.of_lift, hcheck⟩

theorem mapM_pseudoOutput (spends : List (Spend C)) :
    (spends.map (Spend.pseudoOutput C)).mapM C.point? = some (spends.map fun x =>
      opening C x.spent.amount.toNat (residue x.pseudoMask)) := by
  rw [Option.mapM_eq_some_iff, List.forall₂_map_left_iff, List.forall₂_map_right_iff,
    List.forall₂_same]
  intro x _
  rw [Spend.pseudoOutput, point?_pointKey, commit_eq_opening]

/-- Pseudo outputs under masks that add up to those of the outputs balance outputs and fee. -/
theorem checkSimpleBalance_of_hides {payments : List Payment} {paid : List (Paid C)}
    {spends : List (Spend C)} {fee : UInt64} {s : Signature} (hkind : s.kind = .simple)
    (hpseudos : s.pseudoOutputs = spends.map (Spend.pseudoOutput C))
    (houtputs : s.outputs = paid.map (·.coin)) (hproofs : s.rangeProofs = paid.map (·.proof))
    (hfee : s.fee = fee)
    (hpaid : AllHide payments paid)
    (hbalance : Balanced (spends.map (·.spent)) payments fee)
    (hmasks : ((spends.map (·.pseudoMask)).map residue).sum =
      ((paid.map (·.mask)).map residue).sum) : checkSimpleBalance C s = .ok () := by
  obtain ⟨outs, houts⟩ := exists_outputs hpaid
  have hamounts := hbalance.sum_eq
  rw [checkSimpleBalance_eq_ok_iff hkind, hpseudos, houtputs, hfee]
  refine ⟨_, outs, mapM_pseudoOutput spends, houts, ?_, checkRanges_of_hides hpaid houtputs hproofs⟩
  simp only [List.map_map, Function.comp_def] at hamounts hmasks
  rw [total_eq, total_eq, zero_eq, zero_add, sum_opening, sum_outputs hpaid houts, ofFee_eq_opening,
    opening_add, zero_add, hamounts, hmasks]
  simp only [List.map_map, Function.comp_def]

/-- What a run of the signer makes for a simple signature: outputs for the payments, a spend for each input
under a new mask, and its proof. -/
structure SimpleRun (message : Key) (rings : List (List Coin)) (indices : List ℕ)
    (spent : List (Spent C)) (payments : List Payment) (fee : UInt64) (paid : List (Paid C))
    (spends : List (Spend C)) (proofs : List Mlsag.Signature) (s : Signature) : Prop where
  pays : List.Forall₂ (fun payment p => (pay C payment).Yields p) payments paid
  ring_eq : spends.map (·.ring) = rings
  index_eq : spends.map (·.index) = indices
  spent_eq : spends.map (·.spent) = spent
  sum_masks : ((spends.map (·.pseudoMask)).map residue).sum = ((paid.map (·.mask)).map residue).sum
  signed : List.Forall₂ (fun x proof => (x.sign C s.signedHash).Yields proof) spends proofs
  signature_eq : s = { unsigned C .simple message rings (spends.map (Spend.pseudoOutput C)) fee paid
    with spendProofs := proofs }

theorem simpleRun_of_signSimple {message : Key} {rings : List (List Coin)} {indices : List ℕ}
    {spent : List (Spent C)} {payments : List Payment} {fee : UInt64} {s : Signature}
    (h : (signSimple C message rings indices spent payments fee).Yields s) :
    spent ≠ [] ∧ Balanced spent payments fee ∧ ∃ paid spends proofs,
      SimpleRun message rings indices spent payments fee paid spends proofs s := by
  obtain ⟨hcheck, paid, spends, proofs, hpaid, hmasks, hring, hindex, hspent, hsigned, hs⟩ :=
    of_signSimple h
  obtain ⟨hne, -, -, -, hbalance⟩ := checkSimple_eq_ok_iff.mp hcheck
  have hsum := sum_of_drawPseudoMasks hmasks
  rw [residue_sumScalars] at hsum
  exact ⟨hne, hbalance, paid, spends, proofs, hpaid, hring, hindex, hspent, hsum, hsigned, hs⟩

namespace SimpleRun

variable {message : Key} {rings : List (List Coin)} {indices : List ℕ} {spent : List (Spent C)}
  {payments : List Payment} {fee : UInt64} {paid : List (Paid C)} {spends : List (Spend C)}
  {proofs : List Mlsag.Signature} {s : Signature}
  (h : SimpleRun message rings indices spent payments fee paid spends proofs s)

include h

theorem madeFor : s.MadeFor .simple message rings payments fee := by
  rw [h.signature_eq]
  exact madeFor_unsigned h.pays ..

theorem lengths : s.pseudoOutputs.length = spent.length ∧ s.spendProofs.length = spent.length := by
  have hcount : spends.length = spent.length := by rw [← h.spent_eq, List.length_map]
  rw [h.signature_eq]
  exact ⟨(List.length_map _).trans hcount, h.signed.length_eq.symm.trans hcount⟩

theorem accepted
    (hown : ∀ (i : ℕ) ring index x coin, rings[i]? = some ring → indices[i]? = some index →
      spent[i]? = some x → ring[index]? = some coin → x.Owns coin) :
    List.Forall₂ (fun x proof => proof.images.length = 1 ∧
      SpendAccepted C s.signedHash x.ring (x.pseudoOutput C) proof) spends proofs := by
  obtain ⟨hlength, hsigned⟩ := List.forall₂_iff_get.mp h.signed
  refine List.forall₂_iff_get.mpr ⟨hlength, fun i h₁ h₂ => ?_⟩
  apply spendAccepted_of_sign _ (hsigned i h₁ h₂)
  intro coin hcoin
  have hget : spends[i]? = some (spends.get ⟨i, h₁⟩) := List.getElem?_eq_getElem h₁
  have hring : rings[i]? = some (spends.get ⟨i, h₁⟩).ring := by simp [← h.ring_eq, hget]
  have hindex : indices[i]? = some (spends.get ⟨i, h₁⟩).index := by simp [← h.index_eq, hget]
  have hspent : spent[i]? = some (spends.get ⟨i, h₁⟩).spent := by simp [← h.spent_eq, hget]
  exact hown i _ _ _ coin hring hindex hspent hcoin

theorem valid (hne : spent ≠ []) (hbalance : Balanced spent payments fee)
    (hown : ∀ (i : ℕ) ring index x coin, rings[i]? = some ring → indices[i]? = some index →
      spent[i]? = some x → ring[index]? = some coin → x.Owns coin) :
    verify C s = .ok true := by
  have haccepted := h.accepted hown
  have hs := h.signature_eq
  have hkind : s.kind = .simple := by rw [hs]; rfl
  have hrings : s.rings = spends.map (·.ring) := by rw [hs, h.ring_eq]; rfl
  have hpseudos : s.pseudoOutputs = spends.map (Spend.pseudoOutput C) := by rw [hs]; rfl
  have hspendProofs : s.spendProofs = proofs := by rw [hs]
  have hnonempty : spends ≠ [] := by
    rintro rfl
    exact hne h.spent_eq.symm
  rw [← h.spent_eq] at hbalance
  rw [verify_simple_iff hkind]
  refine ⟨checkSimpleBalance_of_hides hkind hpseudos (by rw [hs]; rfl) (by rw [hs]; rfl)
    (by rw [hs]; rfl) (h.pays.imp fun _ _ => hides_of_pay) hbalance h.sum_masks, ?_, ?_⟩
  · rw [isBare_eq_false_iff, hrings, hspendProofs]
    refine ⟨by simpa using hnonempty, forall_mem_right haccepted ?_⟩
    rintro x proof ⟨himages, -⟩ hempty
    rw [hempty] at himages
    cases himages
  · rw [checkSimpleSpends_eq_ok_iff, hrings, hpseudos, hspendProofs, ← haccepted.length_eq]
    refine ⟨by simp, by simp, ?_⟩
    intro j ring pseudo proof hring hpseudo hproof
    obtain ⟨x, hx, -, hspend⟩ := exists_getElem?_of_forall₂ haccepted hproof
    simp only [List.getElem?_map, hx, Option.map_some, Option.some.injEq] at hring hpseudo
    rw [← hring, ← hpseudo]
    exact hspend

end SimpleRun

/-- Whenever the owners of ring members get a simple signature, it is for what they wanted, with a pseudo
output and a spend proof for each of their coins, and it is valid. -/
theorem verify_signSimple {message : Key} {rings : List (List Coin)} {indices : List ℕ}
    {spent : List (Spent C)} {payments : List Payment} {fee : UInt64} {e e' : Entropy}
    {s : Signature} (h : signSimple C message rings indices spent payments fee e = .ok (s, e'))
    (hown : ∀ (i : ℕ) ring index x coin, rings[i]? = some ring → indices[i]? = some index →
      spent[i]? = some x → ring[index]? = some coin → x.Owns coin) :
    s.MadeFor .simple message rings payments fee ∧ s.pseudoOutputs.length = spent.length ∧
      s.spendProofs.length = spent.length ∧ verify C s = .ok true := by
  obtain ⟨hne, hbalance, paid, spends, proofs, hrun⟩ := simpleRun_of_signSimple ⟨e, e', h⟩
  obtain ⟨hpseudos, hproofs⟩ := hrun.lengths
  exact ⟨hrun.madeFor, hpseudos, hproofs, hrun.valid hne hbalance hown⟩

/-- Two coins of the group of residues at different places of their rings are spent. -/
theorem verify_signSimple_residue : ∃ s e', signSimple Residue.group .zero
    [[(Spent.ofResidues 5 7 3).coin, (Spent.ofResidues 1 2 9).coin],
      [(Spent.ofResidues 1 2 9).coin, (Spent.ofResidues 6 8 4).coin]] [0, 1]
    [Spent.ofResidues 5 7 3, Spent.ofResidues 6 8 4] [⟨.zero, 5, .zero⟩] 2
    ⟨fun k => UInt8.ofNat k, 0⟩ = .ok (s, e') ∧ s.kind = .simple ∧ s.spendProofs.length = 2 ∧
      verify Residue.group s = .ok true := by
  have hrun : (signSimple Residue.group .zero
      [[(Spent.ofResidues 5 7 3).coin, (Spent.ofResidues 1 2 9).coin],
        [(Spent.ofResidues 1 2 9).coin, (Spent.ofResidues 6 8 4).coin]] [0, 1]
      [Spent.ofResidues 5 7 3, Spent.ofResidues 6 8 4] [⟨.zero, 5, .zero⟩] 2
      ⟨fun k => UInt8.ofNat k, 0⟩).isOk = true := by decide +kernel
  obtain ⟨⟨s, e'⟩, h⟩ := Except.exists_eq_ok hrun
  have hsigned := verify_signSimple h ?_
  · exact ⟨s, e', h, hsigned.1.kind_eq, hsigned.2.2⟩
  rintro (_ | _ | i) ring index x coin hring hindex hx hcoin
  · cases hring
    cases hindex
    cases hx
    cases hcoin
    exact Spent.owns_coin _
  · cases hring
    cases hindex
    cases hx
    cases hcoin
    exact Spent.owns_coin _
  · cases hx

end ConfidentialTx.Confidential
