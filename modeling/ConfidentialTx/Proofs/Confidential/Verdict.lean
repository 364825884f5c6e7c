import ConfidentialTx.Confidential.Lookup
import ConfidentialTx.Proofs.Confidential.SimpleCompleteness
import ConfidentialTx.Proofs.Mlsag.InPlace
import ConfidentialTx.Proofs.Transaction.Verdict

/-! Verdicts about confidential signatures of any shape. All that is looked up is there, a verdict is
missing only if the signature is not expanded or its parts do not fit together, and it is favourable
exactly if the range proofs, the balance and the spend proofs are what they have to be. -/
namespace ConfidentialTx

variable {C : KeyGroup}

/-! ## Look-ups -/

namespace Borromean

theorem lastKeysAt_eq_some {challenge : C.Scalar} {first second : List C.Point} {ss ts : List Key}
    {n i : ℕ} (hfirst : first.length = i + n) (hsecond : second.length = i + n)
    (hs : ss.length = i + n) (ht : ts.length = i + n) :
    lastKeysAt C challenge first second ss ts n i =
      some (lastKeys C challenge (first.drop i) (second.drop i) (ss.drop i) (ts.drop i)) := by
  induction n generalizing i with
  | zero =>
    rw [(List.drop_eq_nil_iff (i := i)).mpr (Nat.le_of_eq hfirst)]
    rfl
  | succ n ih =>
    have hrest := ih (i := i + 1) (by omega) (by omega) (by omega) (by omega)
    have hi : i < first.length ∧ i < second.length ∧ i < ss.length ∧ i < ts.length := by omega
    simp only [lastKeysAt, hrest, List.drop_eq_getElem_cons, List.getElem?_eq_getElem, hi, lastKeys,
      Option.bind_eq_bind, Option.bind_some]
    cases C.scalar? ss[i] with
    | none => rfl
    | some s =>
      cases C.scalar? ts[i] with
      | none => rfl
      | some t =>
        cases lastKeys C challenge (first.drop (i + 1)) (second.drop (i + 1)) (ss.drop (i + 1))
          (ts.drop (i + 1)) <;> rfl

theorem verifyAt_eq (s : Signature) (first second : Tuple C.Point 64) :
    verifyAt C s first.toList second.toList = some (verifyRings C s first second) := by
  have hlengths : ¬ (first.toList.length ≠ 64 ∨ second.toList.length ≠ 64) := by simp
  rw [verifyAt, if_neg hlengths, verifyRings]
  cases C.scalar? s.challenge with
  | none => rfl
  | some c =>
    simp only [lastKeysAt_eq_some (i := 0) (n := 64) first.length_toList second.length_toList
      s.first.length_toList s.second.length_toList, List.drop_zero]
    rfl

end Borromean

theorem RangeProof.checkAt_eq (commitment : Key) (p : RangeProof) :
    checkAt C commitment p = some (check C commitment p) := by
  rw [checkAt, check]
  cases C.point? commitment with
  | none => rfl
  | some P =>
    cases p.bits.mapM C.point? 64 with
    | none => rfl
    | some bits =>
      simp only [Borromean.verifyAt_eq]
      split <;> rfl

namespace Confidential

theorem checkRangesFromAt_eq (i : ℕ) (coins : List Coin) (ps : List RangeProof) :
    checkRangesFromAt C i coins ps = some (checkRangesFrom C i coins ps) := by
  fun_induction checkRangesFrom C i coins ps with
  | case1 i coin coins p ps cause hcause => simp [checkRangesFromAt, RangeProof.checkAt_eq, hcause]
  | case2 i coin coins p ps u hok ih => simp [checkRangesFromAt, RangeProof.checkAt_eq, hok, ih]
  | case3 i coins ps hnone =>
    rw [checkRangesFromAt]
    exact hnone

theorem checkRangesAt_eq (s : Signature) : checkRangesAt C s = some (checkRanges C s) := by
  rw [checkRangesAt, checkRanges, checkRangesFromAt_eq]
  split <;> rfl

theorem checkAmountsAt_eq (s : Signature) : checkAmountsAt C s = some (checkAmounts C s) := by
  rw [checkAmountsAt, checkAmounts]
  cases s.kind with
  | null => rfl
  | full =>
    simp only [checkFullRangesAt, checkFullRanges, checkRangesAt_eq]
    split <;> rfl
  | simple =>
    simp only [checkSimpleBalanceAt, checkSimpleBalance, checkRangesAt_eq]
    split
    · rfl
    cases s.pseudoOutputs.mapM C.point? with
    | none => rfl
    | some points =>
      cases outputSum C 0 (Commitment.ofFee C s.fee) s.outputs with
      | error r => rfl
      | ok sum => simp only [bind, Except.bind, apply_ite some]

theorem withMatrixAt_eq {reject : String → Rejection} {matrix : Except Error (List (List Key))}
    {decideAt : List (List Key) → Option (Except Error Verdict)}
    {decide : List (List Key) → Except Error Verdict}
    (h : ∀ m, matrix = .ok m → decideAt m = some (decide m)) :
    withMatrixAt reject matrix decideAt = some (withMatrix reject matrix decide) := by
  cases matrix with
  | ok m => exact h m rfl
  | error e => cases e <;> rfl

theorem checkFullSpendAt_eq {s : Signature} (hrings : s.rings ≠ []) :
    checkFullSpendAt C s = some (checkFullSpend C s) := by
  rw [checkFullSpendAt, checkFullSpend]
  rcases s.spendProofs with _ | ⟨proof, _ | ⟨next, proofs⟩⟩
  · rfl
  · refine withMatrixAt_eq fun m hm => ?_
    obtain ⟨column, rest, rfl, hlength⟩ := Mlsag.exists_cons_of_fullMatrix hrings hm
    simp only [List.getElem?_cons_zero, Option.bind_eq_bind, Option.bind_some, hlength, pred?,
      Mlsag.checkInPlace_eq, List.headD_cons, Nat.add_sub_cancel]
    split <;> rfl
  · rfl

theorem checkSpendsFromAt_eq (message : Key) (i : ℕ) (rings : List (List Coin)) (pseudos : List Key)
    (proofs : List Mlsag.Signature) : checkSpendsFromAt C message i rings pseudos proofs =
      some (checkSpendsFrom C message i rings pseudos proofs) := by
  fun_induction checkSpendsFrom C message i rings pseudos proofs with
  | case1 i ring rings pseudo pseudos proof proofs ih =>
    refine withMatrixAt_eq fun m _ => ?_
    simp only [Mlsag.checkInPlace_eq, Option.bind_eq_bind, Option.bind_some]
    cases Mlsag.check C message m proof 1 with
    | error cause => rfl
    | ok u => exact ih
  | case2 i rings pseudos proofs hnone =>
    rw [checkSpendsFromAt]
    exact hnone

theorem checkSpendsAt_eq (s : Signature) : checkSpendsAt C s = some (checkSpends C s) := by
  rw [checkSpendsAt, checkSpends]
  cases s.kind with
  | null => rfl
  | full =>
    cases hbare : s.isBare with
    | true => rfl
    | false => exact checkFullSpendAt_eq (isBare_eq_false_iff.mp hbare).1
  | simple =>
    simp only [checkSimpleSpendsAt, checkSimpleSpends, checkSpendsFromAt_eq, apply_ite some]

theorem verifyAt_eq (s : Signature) : verifyAt C s = some (verify C s) := by
  rw [verifyAt, verify, checkAt, check, checkAmountsAt_eq]
  cases checkAmounts C s with
  | error r => rfl
  | ok u =>
    simp only [Option.bind_eq_bind, Option.bind_some, checkSpendsAt_eq]
    rfl

/-! ## Missing verdicts -/

/-- Complaints about points become rejections, so what is left of a matrix's complaints is the rest. -/
theorem withMatrix_failsWith {P : Error → Prop} {reject : String → Rejection}
    {matrix : Except Error (List (List Key))} {decide : List (List Key) → Except Error Verdict}
    (hmatrix : Except.FailsWith (fun e => Mlsag.IsPointError e ∨ P e) matrix)
    (hdecide : ∀ m, Except.FailsWith P (decide m)) :
    Except.FailsWith P (withMatrix reject matrix decide) := by
  intro e he
  simp only [withMatrix] at he
  split at he
  · exact hdecide _ e he
  · cases he
  · rename_i cause hpoint
    cases he
    obtain ⟨field, rfl⟩ | h := hmatrix _ rfl
    · exact absurd rfl (hpoint field)
    · exact h

theorem checkFullSpend_failsWith (s : Signature) :
    Except.FailsWith Mlsag.IsShapeError (checkFullSpend C s) := by
  rw [checkFullSpend]
  split
  · refine withMatrix_failsWith (Mlsag.fullMatrix_failsWith_shape _ _ _) fun m => ?_
    dsimp only
    split
    · rintro e ⟨⟩
      exact ⟨_, _, _, rfl⟩
    · exact Except.failsWith_ok _
  · rintro e ⟨⟩
    exact ⟨_, _, _, rfl⟩

theorem checkSimpleSpends_failsWith (s : Signature) :
    Except.FailsWith Mlsag.IsShapeError (checkSimpleSpends C s) := by
  intro e he
  simp only [checkSimpleSpends] at he
  obtain ⟨v, hv⟩ := checkSpendsFrom_ok (C := C) s.signedHash 0 s.rings s.pseudoOutputs s.spendProofs
  rw [hv] at he
  split_ifs at he <;> cases he <;> exact ⟨_, _, _, rfl⟩

/-- A verdict is missing only because rings or key images are, or because lengths do not match. -/
theorem verify_failsWith (s : Signature) :
    Except.FailsWith (fun e => e = .notExpanded ∨ Mlsag.IsShapeError e) (verify C s) := by
  intro e he
  rw [verify, Transaction.map_eq_error_iff, check] at he
  cases hamounts : checkAmounts C s with
  | error r =>
    rw [hamounts] at he
    cases he
  | ok u =>
    rw [hamounts] at he
    simp only [checkSpends] at he
    split at he
    · cases he
    · split_ifs at he
      · cases he
        exact .inl rfl
      · exact .inr (checkFullSpend_failsWith s e he)
    · split_ifs at he
      · cases he
        exact .inl rfl
      · exact .inr (checkSimpleSpends_failsWith s e he)

/-! ## Favourable verdicts -/

section

variable (C) (s : Signature)

/-- There are as many range proofs as outputs, each valid for the commitment of its own output. -/
def RangesAccepted : Prop :=
  List.Forall₂ (fun coin p => RangeProof.verify C coin.commitment p = true) s.outputs s.rangeProofs

/-- What a simple signature is accepted for besides its range proofs. -/
structure SimpleAccepted : Prop where
  balanced : ∃ pseudos outs, List.Forall₂ (fun k P => C.point? k = some P) s.pseudoOutputs pseudos ∧
    HaveCommitments C s.outputs outs ∧
      Commitment.total C C.zero pseudos = Commitment.total C (Commitment.ofFee C s.fee) outs
  pseudoOutputs_ne_nil : s.pseudoOutputs ≠ []
  length_rings : s.rings.length = s.pseudoOutputs.length
  length_spendProofs : s.spendProofs.length = s.pseudoOutputs.length
  spends : ∀ (i : ℕ) ring pseudo proof, s.rings[i]? = some ring → s.pseudoOutputs[i]? = some pseudo →
    s.spendProofs[i]? = some proof → proof.images.length = 1 ∧
      ∃ m, Mlsag.simpleMatrix C ring pseudo = .ok m ∧ Mlsag.verify C s.signedHash m proof 1 = true

/-- What a full signature is accepted for besides its range proofs, with so many inputs. -/
structure FullAccepted (inputs : ℕ) : Prop where
  inputs_pos : 0 < inputs
  rings_ne_nil : s.rings ≠ []
  rectangular : ∀ coins ∈ s.rings, coins.length = inputs
  spend : ∃ proof m, s.spendProofs = [proof] ∧ proof.images.length = inputs ∧
    Mlsag.fullMatrix C s.rings s.outputs s.fee = .ok m ∧
      Mlsag.verify C s.signedHash m proof inputs = true

end

variable {s : Signature}

theorem checkRanges_eq_ok_iff_accepted : checkRanges C s = .ok () ↔ RangesAccepted C s := by
  simp only [checkRanges_eq_ok_iff, RangesAccepted, RangeProof.verify, isOk_eq_true_iff]

theorem pointKey_eq_iff (hpoint : ∀ P, C.point? (C.pointKey P) = some P) (P Q : C.Point) :
    C.pointKey P = C.pointKey Q ↔ P = Q := by
  refine ⟨fun h => Option.some.inj ?_, congrArg C.pointKey⟩
  rw [← hpoint P, h, hpoint Q]

theorem SimpleAccepted.isBare (h : SimpleAccepted C s) : s.isBare = false := by
  rw [isBare_eq_false_iff]
  constructor
  · rw [← List.length_pos_iff, h.length_rings, List.length_pos_iff]
    exact h.pseudoOutputs_ne_nil
  · intro proof hproof
    obtain ⟨i, hi⟩ := List.mem_iff_getElem?.mp hproof
    obtain ⟨hlt, -⟩ := List.getElem?_eq_some_iff.mp hi
    rw [h.length_spendProofs] at hlt
    obtain ⟨hone, -⟩ := h.spends i _ _ proof
      (List.getElem?_eq_getElem (by rw [h.length_rings]; exact hlt)) (List.getElem?_eq_getElem hlt) hi
    exact List.ne_nil_of_length_eq_add_one hone

theorem verify_simple_accepted_iff (hpoint : ∀ P, C.point? (C.pointKey P) = some P)
    (hs : s.kind = .simple) :
    verify C s = .ok true ↔ RangesAccepted C s ∧ SimpleAccepted C s := by
  rw [verify_simple_iff hs, checkSimpleBalance_eq_ok_iff hs, checkSimpleSpends_eq_ok_iff]
  simp only [checkRanges_eq_ok_iff_accepted, pointKey_eq_iff hpoint, Option.mapM_eq_some_iff]
  constructor
  · rintro ⟨⟨pseudos, outs, hpseudos, houts, hbalance, hranges⟩, hbare, hrings, hproofs, hspends⟩
    refine ⟨hranges, ⟨pseudos, outs, hpseudos, houts, hbalance⟩, ?_, hrings, hproofs, ?_⟩
    · rw [← List.length_pos_iff, ← hrings, List.length_pos_iff]
      exact (isBare_eq_false_iff.mp hbare).1
    · intro i ring pseudo proof hring hpseudo hproof
      obtain ⟨m, hm, hcheck⟩ := hspends i ring pseudo proof hring hpseudo hproof
      have hverify := Mlsag.verify_eq_true_iff.mpr hcheck
      exact ⟨Mlsag.length_images_of_verify hverify, m, hm, hverify⟩
  · rintro ⟨hranges, h⟩
    obtain ⟨pseudos, outs, hpseudos, houts, hbalance⟩ := h.balanced
    refine ⟨⟨pseudos, outs, hpseudos, houts, hbalance, hranges⟩, h.isBare, h.length_rings,
      h.length_spendProofs, fun i ring pseudo proof hring hpseudo hproof => ?_⟩
    obtain ⟨-, m, hm, hverify⟩ := h.spends i ring pseudo proof hring hpseudo hproof
    exact ⟨m, hm, Mlsag.verify_eq_true_iff.mp hverify⟩

theorem verify_full_accepted_iff (hs : s.kind = .full) :
    verify C s = .ok true ↔ RangesAccepted C s ∧ ∃ inputs, FullAccepted C s inputs := by
  rw [verify_full_iff hs, checkRanges_eq_ok_iff_accepted, checkFullSpend_eq_ok_iff,
    isBare_eq_false_iff]
  refine and_congr_right fun _ => ?_
  constructor
  · rintro ⟨⟨hrings, himages⟩, proof, m, hproof, hm, hlinkable, hcheck⟩
    have hlength := Mlsag.length_eq_of_fullMatrix hm
    rw [length_headD_fullMatrix hrings hlength hm] at hlinkable
    refine ⟨proof.images.length, ?_, hrings, hlinkable ▸ hlength, proof, m, hproof, rfl, hm,
      Mlsag.verify_eq_true_iff.mpr hcheck⟩
    exact List.length_pos_iff.mpr (himages proof (by rw [hproof]; exact List.mem_singleton_self _))
  · rintro ⟨inputs, h⟩
    obtain ⟨proof, m, hproof, rfl, hm, hverify⟩ := h.spend
    refine ⟨⟨h.rings_ne_nil, ?_⟩, proof, m, hproof, hm,
      (length_headD_fullMatrix h.rings_ne_nil h.rectangular hm).symm,
      Mlsag.verify_eq_true_iff.mp hverify⟩
    rw [hproof, List.forall_mem_singleton]
    exact List.length_pos_iff.mp h.inputs_pos

/-- Any signature that has hidden amounts, whatever its lists hold and however long they are, is
decided about without a look-up that fails. A verdict is missing only if the signature is not expanded
or lengths do not match, and it is favourable exactly if the range proofs are accepted and, as the kind
may be, balance and spend proofs of all inputs or the one spend proof. -/
theorem verify_of_any_shape (hpoint : ∀ P, C.point? (C.pointKey P) = some P)
    (hkind : s.kind ≠ .null) :
    verifyAt C s = some (verify C s) ∧
      (∀ e, verify C s = .error e → e = .notExpanded ∨
        ∃ field expected found, e = .shapeMismatch field expected found) ∧
      (verify C s = .ok true ↔ RangesAccepted C s ∧
        (s.kind = .simple → SimpleAccepted C s) ∧
          (s.kind = .full → ∃ inputs, FullAccepted C s inputs)) := by
  refine ⟨verifyAt_eq s, verify_failsWith s, ?_⟩
  cases hs : s.kind with
  | null => exact absurd hs hkind
  | full => simp [verify_full_accepted_iff hs]
  | simple => simp [verify_simple_accepted_iff hpoint hs]

/-- One of two ring members pays two units and leaves one for the fee. -/
theorem verify_of_any_shape_onePayment : ∃ s e', signSimple Residue.group .zero
    [[(Spent.ofResidues 1 2 9).coin, (Spent.ofResidues 5 6 3).coin]] [1]
    [Spent.ofResidues 5 6 3] [⟨.zero, 2, .zero⟩] 1 ⟨fun k => UInt8.ofNat k, 0⟩ = .ok (s, e') ∧
      s.kind ≠ .null ∧ s.outputs.length = 1 ∧ verifyAt Residue.group s = some (.ok true) ∧
        RangesAccepted Residue.group s ∧ SimpleAccepted Residue.group s := by
  have hrun : (signSimple Residue.group .zero
      [[(Spent.ofResidues 1 2 9).coin, (Spent.ofResidues 5 6 3).coin]] [1]
      [Spent.ofResidues 5 6 3] [⟨.zero, 2, .zero⟩] 1 ⟨fun k => UInt8.ofNat k, 0⟩).isOk = true := by
    decide +kernel
  obtain ⟨⟨s, e'⟩, h⟩ := Except.exists_eq_ok hrun
  obtain ⟨hne, hbalance, paid, spends, proofs, hmade⟩ := simpleRun_of_signSimple ⟨_, e', h⟩
  have hverify : verify Residue.group s = .ok true := by
    refine hmade.valid hne hbalance ?_
    rintro (_ | i) ring index x coin hring hindex hx hcoin
    · cases hring
      cases hindex
      cases hx
      cases hcoin
      exact Spent.owns_coin _
    · cases hx
  have hkind := hmade.madeFor.kind_eq
  have hnull : s.kind ≠ .null := by
    rw [hkind]
    decide
  have houtputs : s.outputs.length = 1 := by
    have hdestinations := congrArg List.length hmade.madeFor.destinations
    rwa [List.length_map, List.length_map] at hdestinations
  obtain ⟨hat, -, hiff⟩ :=
    verify_of_any_shape (C := Residue.group) KeyGroup.Lawful.point?_pointKey hnull
  obtain ⟨hranges, hsimple, -⟩ := hiff.mp hverify
  exact ⟨s, e', h, hnull, houtputs, hverify ▸ hat, hranges, hsimple hkind⟩

end Confidential
end ConfidentialTx
