import ConfidentialTx.Confidential.Signing
import ConfidentialTx.Proofs.Confidential.Acceptance
import ConfidentialTx.Proofs.RangeProof
import ConfidentialTx.Residue.Group

/-! Owners and payments. Outputs that were made hide their amounts under known masks, so sums of
commitments open to sums of amounts, and what balances as numbers balances as openings. -/
namespace ConfidentialTx.Confidential

open KeyGroup.ScalarAction KeyGroup.Lawful Commitment

variable {C : KeyGroup}

/-- The secret belongs to the destination of a coin, and amount and mask to its commitment. -/
structure Spent.Owns (x : Spent C) (coin : Coin) : Prop where
  destination : C.point? coin.destination = some (C.smulBase x.secret)
  commitment : C.point? coin.commitment = some (commit C x.amount x.mask)

def Spent.coin (x : Spent C) : Coin :=
  ⟨C.publicKey x.secret, C.pointKey (commit C x.amount x.mask)⟩

def Spent.ofResidues (secret mask : ℕ) (amount : UInt64) : Spent Residue.group :=
  ⟨Residue.ofNat Residue.order_pos secret, Residue.ofNat Residue.order_pos mask, amount⟩

/-- As numbers, the amounts that go in are those that come out, and they add up to an amount. -/
structure Balanced (spent : List (Spent C)) (payments : List Payment) (fee : UInt64) : Prop where
  sum_eq : (spent.map (·.amount.toNat)).sum = fee.toNat + (payments.map (·.amount.toNat)).sum
  sum_lt : (spent.map (·.amount.toNat)).sum < 2 ^ 64

/-- No partial sum is too large if the whole is not. -/
theorem checkBalance_eq_ok_iff {spent : List (Spent C)} {payments : List Payment} {fee : UInt64} :
    checkBalance C spent payments fee = .ok () ↔ Balanced spent payments fee := by
  have hins : ∀ c : UInt64, Amount.sum? 0 (spent.map (·.amount)) = some c ↔
      c.toNat = (spent.map (·.amount.toNat)).sum := by
    simp [Amount.sum?_eq_some_iff, Function.comp_def]
  have houts : ∀ c : UInt64, Amount.sum? fee (payments.map (·.amount)) = some c ↔
      c.toNat = fee.toNat + (payments.map (·.amount.toNat)).sum := by
    simp [Amount.sum?_eq_some_iff, Function.comp_def]
  constructor
  · intro h
    rw [checkBalance] at h
    split at h
    · rename_i a b ha hb
      split at h
      · rename_i hequal
        rw [hins] at ha
        rw [houts, ← hequal, ha] at hb
        exact ⟨hb, ha ▸ a.toNat_lt⟩
      · cases h
    · cases h
  · rintro ⟨hsum, hlt⟩
    have hvalue : (UInt64.ofNat (spent.map (·.amount.toNat)).sum).toNat =
        (spent.map (·.amount.toNat)).sum := by
      rw [UInt64.toNat_ofNat', Nat.mod_eq_of_lt hlt]
    rw [checkBalance, (hins _).mpr hvalue, (houts _).mpr (hvalue.trans hsum)]
    exact if_pos rfl

/-- A signature of one kind, with an output for each payment. -/
structure Signature.MadeFor (s : Signature) (kind : Kind) (message : Key) (rings : List (List Coin))
    (payments : List Payment) (fee : UInt64) : Prop where
  kind_eq : s.kind = kind
  message_eq : s.message = message
  rings_eq : s.rings = rings
  fee_eq : s.fee = fee
  destinations : s.outputs.map (·.destination) = payments.map (·.destination)
  length_maskedAmounts : s.maskedAmounts.length = payments.length
  length_rangeProofs : s.rangeProofs.length = payments.length

theorem destination_of_pay {payment : Payment} {p : Paid C} (h : (pay C payment).Yields p) :
    p.coin.destination = payment.destination := by
  obtain ⟨proved, -, h⟩ := h.of_bind
  rw [Draw.yields_pure_iff.mp h]

theorem madeFor_unsigned {payments : List Payment} {paid : List (Paid C)}
    (hpaid : List.Forall₂ (fun payment p => (pay C payment).Yields p) payments paid) (kind : Kind)
    (message : Key) (rings : List (List Coin)) (pseudoOutputs : List Key) (fee : UInt64)
    (proofs : List Mlsag.Signature) : Signature.MadeFor
      { unsigned C kind message rings pseudoOutputs fee paid with spendProofs := proofs }
      kind message rings payments fee := by
  have hlength := hpaid.length_eq.symm
  have hdestinations : (paid.map (·.coin)).map (·.destination) = payments.map (·.destination) := by
    rw [← List.forall₂_eq_eq_eq, List.forall₂_map_left_iff, List.forall₂_map_left_iff,
      List.forall₂_map_right_iff]
    exact hpaid.flip.imp fun _ _ => destination_of_pay
  exact ⟨rfl, rfl, rfl, rfl, hdestinations, (List.length_map _).trans hlength,
    (List.length_map _).trans hlength⟩

variable [KeyGroup.Lawful C]

theorem Spent.owns_coin (x : Spent C) : x.Owns x.coin :=
  ⟨point?_pointKey _, point?_pointKey _⟩

/-- The commitment of an output opens to an amount and has a valid range proof. -/
structure Paid.Hides (p : Paid C) (amount : UInt64) : Prop where
  commitment : p.coin.commitment = C.pointKey (opening C amount.toNat (residue p.mask))
  check : RangeProof.check C p.coin.commitment p.proof = .ok ()

theorem hides_of_pay {payment : Payment} {p : Paid C} (h : (pay C payment).Yields p) :
    p.Hides payment.amount := by
  obtain ⟨proved, hproved, h⟩ := h.of_bind
  obtain ⟨hcommitment, hcheck⟩ := RangeProof.of_prove order_nsmul_amountBase point?_pointKey
    scalar?_eq_some_iff hproved
  rw [commit_eq_opening] at hcommitment
  rw [Draw.yields_pure_iff.mp h]
  exact ⟨hcommitment, hcheck⟩

abbrev AllHide (payments : List Payment) (paid : List (Paid C)) : Prop :=
  List.Forall₂ (fun payment p => p.Hides payment.amount) payments paid

variable {payments : List Payment} {paid : List (Paid C)}

theorem checkRanges_of_hides (h : AllHide payments paid) {s : Signature}
    (houtputs : s.outputs = paid.map (·.coin))
    (hproofs : s.rangeProofs = paid.map (·.proof)) : checkRanges C s = .ok () := by
  rw [checkRanges_eq_ok_iff, houtputs, hproofs, List.forall₂_map_left_iff,
    List.forall₂_map_right_iff, List.forall₂_same]
  exact forall_mem_right h fun _ _ hp => hp.check

theorem exists_outputs (h : AllHide payments paid) :
    ∃ outs, HaveCommitments C (paid.map (·.coin)) outs := by
  induction h with
  | nil => exact ⟨[], .nil⟩
  | cons hp _ ih =>
    obtain ⟨outs, houts⟩ := ih
    exact ⟨_, .cons (by rw [hp.commitment, point?_pointKey]) houts⟩

theorem sum_outputs (h : AllHide payments paid) {outs : List C.Point}
    (houts : HaveCommitments C (paid.map (·.coin)) outs) :
    outs.sum = opening C (payments.map (·.amount.toNat)).sum
      ((paid.map (·.mask)).map residue).sum := by
  induction h generalizing outs with
  | nil =>
    cases houts
    simp
  | cons hp _ ih =>
    cases houts with
    | cons hQ hrest =>
      rw [hp.commitment, point?_pointKey, Option.some.injEq] at hQ
      simp only [List.sum_cons, List.map_cons, ih hrest, ← hQ, opening_add]

theorem residue_sumScalars (ss : List C.Scalar) :
    residue (sumScalars C ss) = (ss.map residue).sum := by
  rw [sumScalars, residue_foldl_add, residue_ofAmount]
  simp

theorem sum_of_owns {coins : List Coin} {spent : List (Spent C)} {points : List C.Point}
    (hown : List.Forall₂ (fun coin x => x.Owns coin) coins spent)
    (hpoints : HaveCommitments C coins points) :
    points.sum = opening C (spent.map (·.amount.toNat)).sum
      ((spent.map (·.mask)).map residue).sum := by
  induction hown generalizing points with
  | nil =>
    cases hpoints
    simp
  | cons hx _ ih =>
    cases hpoints with
    | cons hQ hrest =>
      rw [hx.commitment, Option.some.injEq] at hQ
      simp only [List.sum_cons, List.map_cons, ih hrest, ← hQ, commit_eq_opening, opening_add]

end ConfidentialTx.Confidential
