import ConfidentialTx.Edwards.Group
import ConfidentialTx.Proofs.Confidential.Acceptance
import ConfidentialTx.Proofs.Transaction.Reachable
import ConfidentialTx.Transaction.Verification

/-! Spends and their proofs. Every key image of an accepted transaction is one of a valid spend
proof, unless the transaction has no hidden amounts: then nothing is looked at. -/
namespace ConfidentialTx

namespace Confidential

variable (C : KeyGroup)

/-- The matrix of keys that spend proof number `j` is made over. Without hidden amounts there is
none. -/
def IsSpendMatrix (s : Signature) (j : Nat) (matrix : List (List Key)) : Prop :=
  match s.kind with
  | .null => False
  | .full => Mlsag.fullMatrix C s.rings s.outputs s.fee = .ok matrix
  | .simple => ∃ ring pseudo, s.rings[j]? = some ring ∧ s.pseudoOutputs[j]? = some pseudo ∧
      Mlsag.simpleMatrix C ring pseudo = .ok matrix

/-- Some spend proof has the key image and is valid for the signed hash. -/
def Signature.Authorizes (s : Signature) (image : Key) : Prop :=
  ∃ j proof matrix, s.spendProofs[j]? = some proof ∧ IsSpendMatrix C s j matrix ∧
    Mlsag.verify C s.signedHash matrix proof proof.images.length = true ∧ image ∈ proof.images

variable {C}

theorem authorizes_of_full {s : Signature} {image : Key} (hs : s.kind = .full)
    (h : verify C s = .ok true) (himage : image ∈ s.spendProofs.flatMap (·.images)) :
    s.Authorizes C image := by
  obtain ⟨-, -, h⟩ := (verify_full_iff hs).mp h
  obtain ⟨proof, m, hproof, hm, -, hcheck⟩ := checkFullSpend_eq_ok_iff.mp h
  refine ⟨0, proof, m, by rw [hproof]; rfl, ?_, isOk_eq_true_iff.mpr hcheck, ?_⟩
  · rw [IsSpendMatrix, hs]
    exact hm
  · simpa [hproof] using himage

theorem authorizes_of_simple {s : Signature} {image : Key} (hs : s.kind = .simple)
    (h : verify C s = .ok true) (himage : image ∈ s.spendProofs.flatMap (·.images)) :
    s.Authorizes C image := by
  obtain ⟨-, -, h⟩ := (verify_simple_iff hs).mp h
  obtain ⟨hrings, hproofs, hall⟩ := checkSimpleSpends_eq_ok_iff.mp h
  obtain ⟨proof, hproof, hmem⟩ := List.mem_flatMap.mp himage
  obtain ⟨j, hj, rfl⟩ := List.mem_iff_getElem.mp hproof
  obtain ⟨ring, hring⟩ : ∃ ring, s.rings[j]? = some ring :=
    ⟨_, List.getElem?_eq_getElem (by omega)⟩
  obtain ⟨pseudo, hpseudo⟩ : ∃ pseudo, s.pseudoOutputs[j]? = some pseudo :=
    ⟨_, List.getElem?_eq_getElem (by omega)⟩
  have hget : s.spendProofs[j]? = some s.spendProofs[j] := List.getElem?_eq_getElem _
  obtain ⟨m, hm, hcheck⟩ := hall j _ _ _ hring hpseudo hget
  obtain ⟨-, -, -, -, -, -, hlength, -⟩ := Mlsag.check_eq_ok_iff.mp hcheck
  refine ⟨j, _, m, hget, ?_, ?_, hmem⟩
  · rw [IsSpendMatrix, hs]
    exact ⟨_, _, hring, hpseudo, hm⟩
  · rw [hlength]
    exact isOk_eq_true_iff.mpr hcheck

end Confidential

namespace Transaction

variable (C : KeyGroup)

/-- Every input that spends an output has a valid spend proof. -/
def Authorized (t : Transaction) : Prop :=
  ∃ s, t.signatures = .confidential s ∧
    ∀ i ∈ t.body.inputs, ∀ image, i.keyImage? = some image → s.Authorizes C image

variable {C}

theorem verifyConfidential_eq_ok_true_iff {t : Transaction} {s : Confidential.Signature}
    (hs : t.signatures = .confidential s) : t.verifyConfidential C = .ok true ↔
      s.kind = .null ∨ (t.state = .expanded ∧ Confidential.verify C s = .ok true) := by
  rw [verifyConfidential, Confidential.map_isOk_eq_ok_true_iff, checkConfidential, hs,
    Confidential.verify, Confidential.map_isOk_eq_ok_true_iff]
  by_cases hnull : s.kind = .null
  · simp [hnull]
  · by_cases hstate : t.state = .expanded
    · simp [hnull, hstate]
    · simp [hnull, hstate]

/-- A transaction without hidden amounts is accepted whatever it spends. Any other that is accepted
has a valid spend proof for every input. -/
theorem authorized_iff {t : Transaction} {s : Confidential.Signature} (ht : Reachable t)
    (hs : t.signatures = .confidential s) :
    (s.kind = .null → t.verifyConfidential C = .ok true) ∧
      (t.verifyConfidential C = .ok true →
        (t.Authorized C ↔ s.kind ≠ .null ∨ ∀ i ∈ t.body.inputs, i.keyImage? = none)) := by
  rw [verifyConfidential_eq_ok_true_iff hs]
  refine ⟨.inl, ?_⟩
  intro haccepted
  constructor
  · rintro ⟨s', hs', hall⟩
    rw [hs] at hs'
    cases hs'
    by_cases hnull : s.kind = .null
    · refine .inr fun i hi => ?_
      cases himage : i.keyImage? with
      | none => rfl
      | some image =>
        obtain ⟨j, proof, m, -, hm, -⟩ := hall i hi image himage
        rw [Confidential.IsSpendMatrix, hnull] at hm
        exact hm.elim
    · exact .inl hnull
  · intro h
    refine ⟨s, hs, fun i hi image himage => ?_⟩
    rcases h with hnull | hnone
    · -- The signature was looked at, so the transaction was expanded and its images are the inputs'.
      obtain ⟨hstate, hverify⟩ := haccepted.resolve_left hnull
      have hlinked := ht.linked hstate s hs hnull
      have hmem : image ∈ s.spendProofs.flatMap (·.images) := by
        have h : some image ∈ t.body.inputs.map Input.keyImage? := by
          rw [← himage]
          exact List.mem_map_of_mem hi
        rw [hlinked] at h
        simpa using h
      cases hkind : s.kind with
      | null => exact absurd hkind hnull
      | full => exact Confidential.authorizes_of_full hkind hverify hmem
      | simple => exact Confidential.authorizes_of_simple hkind hverify hmem
    · rw [hnone i hi] at himage
      cases himage

/-- The bytes of a transaction that spends one output, pays nobody and carries no signature. -/
def unsignedBytes : List UInt8 :=
  [2, 0, 1, 2, 0, 1, 5] ++ (0x58 :: List.replicate 31 0x66) ++ [0, 0, 0]

def unsignedSpend : Transaction :=
  ⟨⟨2, 0, [.spend 0 [5] ⟨0x58 :: List.replicate 31 0x66, rfl⟩], [], []⟩, .confidential .null,
    .parsed⟩

theorem parse_unsignedBytes : parse .standard unsignedBytes = .ok unsignedSpend := by
  decide +kernel

/-- The unsigned spend is accepted without a valid spend proof. -/
theorem authorized_iff_unsignedSpend : unsignedSpend.verifyConfidential Edwards.group = .ok true ∧
    ¬ unsignedSpend.Authorized Edwards.group := by
  obtain ⟨hnull, hiff⟩ := authorized_iff (C := Edwards.group) (.parsed parse_unsignedBytes) rfl
  have haccepted := hnull rfl
  refine ⟨haccepted, fun h => ?_⟩
  rcases (hiff haccepted).mp h with hkind | hnone
  · exact hkind rfl
  · cases hnone _ (List.mem_singleton_self _)

/-- Some accepted transaction spends an output without a valid spend proof. -/
theorem exists_accepted_not_authorized : ∃ (C : KeyGroup) (t : Transaction),
    Reachable t ∧ t.verifyConfidential C = .ok true ∧ ¬ t.Authorized C := by
  refine ⟨Edwards.group, unsignedSpend, .parsed parse_unsignedBytes, rfl, ?_⟩
  rintro ⟨s, hs, hall⟩
  cases hs
  obtain ⟨j, proof, m, hproof, -⟩ := hall _ (List.mem_singleton_self _) _ rfl
  cases hproof

end Transaction
end ConfidentialTx
