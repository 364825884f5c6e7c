import ConfidentialTx.Proofs.Confidential.Payments
import ConfidentialTx.Proofs.Group.Residue
import ConfidentialTx.Proofs.Mlsag.Completeness
import ConfidentialTx.Proofs.Mlsag.Matrix

/-! Full signatures are accepted if they were made by the owners of the coins. The amounts of inputs
and outputs balance, so the difference of their commitments is a public key, and its secret is the
difference of the masks. -/
namespace ConfidentialTx.Confidential

open KeyGroup.ScalarAction KeyGroup.Lawful Commitment

variable {C : KeyGroup}

theorem checkFull_eq_ok_iff {rings : List (List Coin)} {index : ℕ} {spent : List (Spent C)}
    {payments : List Payment} {fee : UInt64} :
    checkFull C rings index spent payments fee = .ok () ↔ spent ≠ [] ∧ index < rings.length ∧
      (∀ coins ∈ rings, coins.length = spent.length) ∧ Balanced spent payments fee := by
  have hcolumns : (∀ coins ∈ rings, coins.length = spent.length) ↔
      rings.find? (fun coins => coins.length ≠ spent.length) = none := by
    simp
  rw [checkFull, Except.ite_error_eq_ok_iff, Except.ite_error_eq_ok_iff, List.isEmpty_iff, not_le,
    hcolumns]
  cases rings.find? fun coins => coins.length ≠ spent.length with
  | none => simp [checkBalance_eq_ok_iff]
  | some coins => simp

theorem of_checkFull {rings : List (List Coin)} {index : ℕ} {spent : List (Spent C)}
    {payments : List Payment} {fee : UInt64}
    (h : checkFull C rings index spent payments fee = .ok ()) :
    spent ≠ [] ∧ rings ≠ [] ∧ (∀ coins ∈ rings, coins.length = spent.length) ∧
      Balanced spent payments fee := by
  obtain ⟨hne, hindex, hcolumns, hbalance⟩ := checkFull_eq_ok_iff.mp h
  exact ⟨hne, List.ne_nil_of_length_pos (Nat.zero_lt_of_lt hindex), hcolumns, hbalance⟩

variable (C) in
def maskDifference (spent : List (Spent C)) (paid : List (Paid C)) : C.Scalar :=
  (paid.map (·.mask)).foldl C.scalarSub (sumScalars C (spent.map (·.mask)))

theorem of_signFull {message : Key} {rings : List (List Coin)} {index : ℕ}
    {spent : List (Spent C)} {payments : List Payment} {fee : UInt64} {s : Signature}
    (h : (signFull C message rings index spent payments fee).Yields s) :
    checkFull C rings index spent payments fee = .ok () ∧ ∃ paid m proof,
      List.Forall₂ (fun payment p => (pay C payment).Yields p) payments paid ∧
        Mlsag.fullMatrix C rings (paid.map (·.coin)) fee = .ok m ∧
          (Mlsag.sign C s.signedHash m (spent.map (·.secret) ++ [maskDifference C spent paid]) index
            spent.length).Yields proof ∧
              s = { unsigned C .full message rings [] fee paid with spendProofs := [proof] } := by
  obtain ⟨u, hcheck, h⟩ := h.of_bind
  obtain ⟨paid, hpaid, h⟩ := h.of_bind
  obtain ⟨m, hm, h⟩ := h.of_bind
  obtain ⟨proof, hproof, h⟩ := h.of_bind
  refine ⟨hcheck.of_lift, paid, m, proof, hpaid.of_mapM, hm.of_lift, ?_, Draw.yields_pure_iff.mp h⟩
  rw [Draw.yields_pure_iff.mp h]
  exact hproof

variable [KeyGroup.Lawful C]

/-- The owners of the coins of a ring member know the logarithms of its whole column, as the
amounts balance. -/
theorem owns_fullColumn {coins : List Coin} {spent : List (Spent C)} {payments : List Payment}
    {paid : List (Paid C)} {fee : UInt64} {inputs : ℕ} {outs : List C.Point} {column : List Key}
    (hown : List.Forall₂ (fun coin x => x.Owns coin) coins spent)
    (hpaid : AllHide payments paid)
    (hbalance : Balanced spent payments fee)
    (houts : HaveCommitments C (paid.map (·.coin)) outs)
    (hcolumn : Mlsag.fullColumn C inputs (total C (ofFee C fee) outs) coins = .ok column) :
    Mlsag.OwnsKeys C (spent.map (·.secret) ++ [maskDifference C spent paid]) column := by
  obtain ⟨-, points, hpoints, rfl⟩ := Mlsag.fullColumn_eq_ok_iff.mp hcolumn
  have hamounts := hbalance.sum_eq
  have hins := sum_of_owns hown hpoints
  have houtSum := sum_outputs hpaid houts
  refine List.rel_append ?_ (.cons ?_ .nil)
  · rw [List.forall₂_map_left_iff, List.forall₂_map_right_iff]
    exact hown.imp fun _ _ hx => hx.destination
  · rw [point?_pointKey, sub_eq, total_eq, total_eq, zero_eq, zero_add, hins, houtSum,
      ofFee_eq_opening, opening_add, zero_add, hamounts, opening_sub, smulBase_eq_opening,
      maskDifference, residue_foldl_sub, residue_sumScalars]

theorem owns_fullMatrix {rings : List (List Coin)} {index : ℕ} {spent : List (Spent C)}
    {payments : List Payment} {paid : List (Paid C)} {fee : UInt64} {m : List (List Key)}
    (hlengths : ∀ coins ∈ rings, coins.length = spent.length)
    (hown : ∀ coins, rings[index]? = some coins → ∀ (j : ℕ) coin x, coins[j]? = some coin →
      spent[j]? = some x → x.Owns coin)
    (hpaid : AllHide payments paid) (hbalance : Balanced spent payments fee)
    (hm : Mlsag.fullMatrix C rings (paid.map (·.coin)) fee = .ok m) :
    ∀ keys, m[index]? = some keys →
      Mlsag.OwnsKeys C (spent.map (·.secret) ++ [maskDifference C spent paid]) keys := by
  intro keys hkeys
  obtain ⟨outs, houts, hcolumns⟩ := Mlsag.fullMatrix_eq_ok_iff.mp hm
  obtain ⟨coins, hcoins, hcolumn⟩ := exists_getElem?_of_forall₂ hcolumns hkeys
  have hlength := hlengths coins (List.mem_of_getElem? hcoins)
  have howns : List.Forall₂ (fun coin x => x.Owns coin) coins spent := by
    refine List.forall₂_iff_get.mpr ⟨hlength, fun j h₁ h₂ => ?_⟩
    have hcoin : coins[j]? = some (coins.get ⟨j, h₁⟩) := List.getElem?_eq_getElem h₁
    have hx : spent[j]? = some (spent.get ⟨j, h₂⟩) := List.getElem?_eq_getElem h₂
    exact hown coins hcoins j _ _ hcoin hx
  exact owns_fullColumn howns hpaid hbalance houts hcolumn

/-- Whenever the owners of the coins of one ring member get a full signature, it is for what they wanted,
with one spend proof and no pseudo output, and it is valid. -/
theorem verify_signFull {message : Key} {rings : List (List Coin)} {index : ℕ}
    {spent : List (Spent C)} {payments : List Payment} {fee : UInt64} {e e' : Entropy}
    {s : Signature} (h : signFull C message rings index spent payments fee e = .ok (s, e'))
    (hown : ∀ coins, rings[index]? = some coins → ∀ (j : ℕ) coin x, coins[j]? = some coin →
      spent[j]? = some x → x.Owns coin) :
    s.MadeFor .full message rings payments fee ∧ s.pseudoOutputs = [] ∧ s.spendProofs.length = 1 ∧
      verify C s = .ok true := by
  obtain ⟨hcheck, paid, m, proof, hpaid, hm, hproof, hs⟩ := of_signFull ⟨e, e', h⟩
  obtain ⟨hne, hringsNe, hlengths, hbalance⟩ := of_checkFull hcheck
  have hhides := hpaid.imp fun _ _ => hides_of_pay
  have hkeys := owns_fullMatrix hlengths hown hhides hbalance hm
  obtain ⟨himages, hvalid⟩ := Mlsag.check_sign hproof hkeys
  have hhead := Mlsag.length_headD_of_rowCount (Mlsag.signBetween_of_sign hproof).1
  rw [List.length_append, List.length_map, List.length_singleton] at hhead
  have hspendProofs : s.spendProofs = [proof] := by rw [hs]
  have hmade : s.MadeFor .full message rings payments fee := by
    rw [hs]
    exact madeFor_unsigned hpaid ..
  have hrings := hmade.rings_eq
  refine ⟨hmade, by rw [hs]; rfl, by rw [hspendProofs]; rfl, ?_⟩
  rw [verify_full_iff hmade.kind_eq]
  refine ⟨checkRanges_of_hides hhides (by rw [hs]; rfl) (by rw [hs]; rfl), ?_, ?_⟩
  · have hspent := List.length_pos_iff.mpr hne
    rw [isBare_eq_false_iff, hrings, hspendProofs, List.forall_mem_singleton]
    exact ⟨hringsNe, List.ne_nil_of_length_pos (by omega)⟩
  · rw [checkFullSpend_eq_ok_iff]
    refine ⟨proof, m, hspendProofs, ?_, by omega, ?_⟩
    · rw [hs]
      exact hm
    · rw [himages]
      exact hvalid

/-- The second of two ring members spends two coins of the group of residues. -/
theorem verify_signFull_residue : ∃ s e', signFull Residue.group .zero
    [[(Spent.ofResidues 1 2 9).coin, (Spent.ofResidues 3 4 8).coin],
      [(Spent.ofResidues 5 7 3).coin, (Spent.ofResidues 6 8 4).coin]] 1
    [Spent.ofResidues 5 7 3, Spent.ofResidues 6 8 4] [⟨.zero, 5, .zero⟩] 2
    ⟨fun k => UInt8.ofNat k, 0⟩ = .ok (s, e') ∧ s.kind = .full ∧ s.spendProofs.length = 1 ∧
      verify Residue.group s = .ok true := by
  have hrun : (signFull Residue.group .zero
      [[(Spent.ofResidues 1 2 9).coin, (Spent.ofResidues 3 4 8).coin],
        [(Spent.ofResidues 5 7 3).coin, (Spent.ofResidues 6 8 4).coin]] 1
      [Spent.ofResidues 5 7 3, Spent.ofResidues 6 8 4] [⟨.zero, 5, .zero⟩] 2
      ⟨fun k => UInt8.ofNat k, 0⟩).isOk = true := by decide +kernel
  obtain ⟨⟨s, e'⟩, h⟩ := Except.exists_eq_ok hrun
  have hsigned := verify_signFull h ?_
  · exact ⟨s, e', h, hsigned.1.kind_eq, hsigned.2.2⟩
  intro coins hcoins
  cases hcoins
  rintro (_ | _ | j) coin x hcoin hx
  · cases hcoin
    cases hx
    exact Spent.owns_coin _
  · cases hcoin
    cases hx
    exact Spent.owns_coin _
  · cases hx

end ConfidentialTx.Confidential
