import ConfidentialTx.Confidential.Opening
import ConfidentialTx.Proofs.Confidential.Signable
import ConfidentialTx.Proofs.MaskedAmount
import ConfidentialTx.Proofs.Transaction.Restoration

/-! Opening outputs. An output opens to an amount and a mask exactly if its masked amount and its
commitment were made from them; and what a signer pays can be opened by who shares the secret, also
after the signature was written and read. -/
namespace ConfidentialTx.Confidential

open KeyGroup.ScalarAction Commitment Wire

variable {C : KeyGroup}

/-! ## What was signed is read again -/

theorem Spend.hasShape_of_sign {message : Key} {x : Spend C} {proof : Mlsag.Signature}
    (h : (x.sign C message).Yields proof) : proof.HasShape x.ring.length 2 := by
  obtain ⟨m, hm, h⟩ := h.of_bind
  obtain ⟨pseudo, -, hcolumns⟩ := Mlsag.simpleMatrix_eq_ok_iff.mp hm.of_lift
  obtain ⟨hcount, hlengths⟩ := Mlsag.lengths_of_sign h
  exact ⟨by rw [hcount, hcolumns.length_eq], hlengths⟩

section

variable {message : Key} {rings : List (List Coin)} {spent : List (Spent C)}
  {payments : List Payment} {fee : UInt64} {s : Signature}

theorem hasShape_of_unsigned {kind : Kind} {pseudoOutputs : List Key} {paid : List (Paid C)}
    {proofs : List Mlsag.Signature} {inputs columns : ℕ}
    (hs : s = { unsigned C kind message rings pseudoOutputs fee paid with spendProofs := proofs })
    (hpaid : payments.length = paid.length) (hkind : kind ≠ .null)
    (hpseudos : pseudoOutputs.length = pseudoCount kind inputs)
    (hcount : proofs.length = (spendShape kind inputs).1)
    (hproofs : ∀ m ∈ proofs, m.HasShape columns (spendShape kind inputs).2) :
    s.HasShape inputs payments.length columns := by
  rw [hs, hpaid]
  exact (Signature.hasShape_iff hkind).mpr ⟨hpseudos, List.length_map .., List.length_map ..,
    List.length_map .., hcount, hproofs⟩

theorem hasShape_of_signSimple {indices : List ℕ} {columns : ℕ}
    (h : (signSimple C message rings indices spent payments fee).Yields s)
    (hrings : ∀ ring ∈ rings, ring.length = columns) :
    s.HasShape spent.length payments.length columns := by
  obtain ⟨-, paid, spends, proofs, hpaid, -, hring, -, hspent, hsigned, hs⟩ := of_signSimple h
  have hcount : spends.length = spent.length := by rw [← hspent, List.length_map]
  have hproofs : ∀ proof ∈ proofs, proof.HasShape columns 2 := by
    rw [← hring, List.forall_mem_map] at hrings
    refine forall_mem_right ((List.forall₂_and_left _ _).mpr ⟨hrings, hsigned⟩) ?_
    rintro x proof ⟨hlength, hproof⟩
    rw [← hlength]
    exact Spend.hasShape_of_sign hproof
  refine hasShape_of_unsigned hs hpaid.length_eq (by decide) ?_ ?_ hproofs
  · rw [List.length_map, hcount, pseudoCount]
  · rw [← hsigned.length_eq, hcount, spendShape]

theorem hasShape_of_signFull {index : ℕ}
    (h : (signFull C message rings index spent payments fee).Yields s) :
    s.HasShape spent.length payments.length rings.length := by
  obtain ⟨-, paid, m, proof, hpaid, hm, hproof, hs⟩ := of_signFull h
  obtain ⟨outs, -, hcolumns⟩ := Mlsag.fullMatrix_eq_ok_iff.mp hm
  obtain ⟨hcount, hlengths⟩ := Mlsag.lengths_of_sign hproof
  rw [List.length_append, List.length_map, List.length_singleton] at hlengths
  refine hasShape_of_unsigned hs hpaid.length_eq (by decide) rfl rfl ?_
  exact List.forall_mem_singleton.mpr ⟨by rw [hcount, hcolumns.length_eq], hlengths⟩

end

theorem Signature.parse_toBytes {s : Signature} {inputs outputs mixin : ℕ}
    (hmixin : mixin < maxSize) (h : s.HasShape inputs outputs (mixin + 1)) :
    Signature.parse inputs outputs mixin (Reader.ofBytes s.toBytes) =
      (.ok s.blank, ⟨s.toBytes.length, []⟩) := by
  have hpasses : (Reader.ofBytes s.toBytes).Passes s.blank.toBytes ⟨s.toBytes.length, []⟩ := by
    simp [Reader.ofBytes, Reader.Passes, s.toBytes_blank]
  refine (parse_reads inputs outputs mixin _ _ _).mpr ⟨.inr ⟨?_, s.isBlank_blank⟩, hpasses⟩
  rw [saturate_of_le (Nat.succ_le_of_lt hmixin)]
  exact h.blank

/-- Opening looks at nothing but what is written. -/
theorem openOutput_blank (s : Signature) (index : ℕ) (secret : Key) :
    openOutput C s.blank index secret = openOutput C s index secret := by
  simp only [openOutput, Signature.blank, List.getElem?_map]
  cases s.maskedAmounts[index]? <;> cases s.outputs[index]? <;> rfl

/-! ## What was paid is opened -/

variable (C) in
/-- For every payment the output at its place opens to its amount. -/
def Recovers (s : Signature) (payments : List Payment) : Prop :=
  ∀ (i : ℕ) payment, payments[i]? = some payment →
    ∃ mask, openOutput C s i payment.secret = .ok (payment.amount, mask)

variable (C) in
/-- What was written for the signature is read with these counts, and for every payment the output
that was read opens to its amount. -/
def RecoversRead (s : Signature) (payments : List Payment) (inputs mixin : ℕ) : Prop :=
  ∃ s', Signature.parse inputs payments.length mixin (Reader.ofBytes s.toBytes) =
    (.ok s', ⟨s.toBytes.length, []⟩) ∧ Recovers C s' payments

theorem recoversRead_of_recovers {s : Signature} {payments : List Payment} {inputs mixin : ℕ}
    (hmixin : mixin < maxSize) (hshape : s.HasShape inputs payments.length (mixin + 1))
    (h : Recovers C s payments) : RecoversRead C s payments inputs mixin := by
  refine ⟨s.blank, Signature.parse_toBytes hmixin hshape, ?_⟩
  simpa only [Recovers, openOutput_blank] using h

variable [KeyGroup.ScalarAction C]

section

variable (hamount : order C • C.amountBase = 0) (hpoint : ∀ P, C.point? (C.pointKey P) = some P)
  (hscalar : ∀ k a, C.scalar? k = some a ↔ k = C.scalarKey a)
  (hkey : ∀ a : C.Scalar, (C.scalarKey a).toList = Bytes.ofNatLE 32 (residue a).val)
  (horder : 2 ^ 64 ≤ order C)

include hscalar hkey horder in
theorem openOutput_eq_ok_iff {s : Signature} {index : ℕ} {secret : Key} {amount : UInt64}
    {mask : C.Scalar} : openOutput C s index secret = .ok (amount, mask) ↔
      ∃ masked coin, s.maskedAmounts[index]? = some masked ∧ s.outputs[index]? = some coin ∧
        masked.Masks C mask amount secret ∧
          C.pointKey (commit C amount mask) = coin.commitment := by
  have hdecode : ∀ masked : MaskedAmount, masked.decode C secret = .ok (amount, mask) ↔
      masked.Masks C mask amount secret :=
    fun masked => MaskedAmount.decode_eq_ok_iff hscalar hkey horder
  rw [openOutput]
  cases s.maskedAmounts[index]? with
  | none => simp
  | some masked =>
    cases s.outputs[index]? with
    | none => simp
    | some coin =>
      constructor
      · intro h
        obtain ⟨⟨amount', mask'⟩, hopen, h⟩ := Except.bind_eq_ok_iff.mp h
        dsimp only at h
        split at h
        · rename_i hcommitment
          cases h
          exact ⟨masked, coin, rfl, rfl, (hdecode masked).mp hopen, hcommitment⟩
        · cases h
      · rintro ⟨_, _, hmasked, hcoin, hmasks, hcommitment⟩
        cases hmasked
        cases hcoin
        exact Except.bind_eq_ok_iff.mpr ⟨_, (hdecode masked).mpr hmasks, if_pos hcommitment⟩

include hamount hpoint hscalar in
theorem masks_of_pay {payment : Payment} {p : Paid C} (h : (pay C payment).Yields p) :
    p.maskedAmount.Masks C p.mask payment.amount payment.secret ∧
      C.pointKey (commit C payment.amount p.mask) = p.coin.commitment := by
  obtain ⟨proved, hproved, h⟩ := h.of_bind
  obtain ⟨hcommitment, -⟩ := RangeProof.of_prove hamount hpoint hscalar hproved
  rw [Draw.yields_pure_iff.mp h]
  exact ⟨⟨rfl, rfl⟩, hcommitment.symm⟩

include hamount hpoint hscalar hkey horder

theorem recovers_of_pay {s : Signature} {payments : List Payment} {paid : List (Paid C)}
    (hpaid : List.Forall₂ (fun payment p => (pay C payment).Yields p) payments paid)
    (hmasked : s.maskedAmounts = paid.map (·.maskedAmount))
    (houtputs : s.outputs = paid.map (·.coin)) : Recovers C s payments := by
  intro i payment hpayment
  obtain ⟨p, hp, hpay⟩ := exists_getElem?_of_forall₂ hpaid.flip hpayment
  obtain ⟨hmasks, hcommitment⟩ := masks_of_pay hamount hpoint hscalar hpay
  refine ⟨p.mask, (openOutput_eq_ok_iff hscalar hkey horder).mpr
    ⟨p.maskedAmount, p.coin, ?_, ?_, hmasks, hcommitment⟩⟩
  · rw [hmasked, List.getElem?_map, hp]
    rfl
  · rw [houtputs, List.getElem?_map, hp]
    rfl

/-- Recipients open exactly what was sent. An output opens to an amount and a mask if and only if its
masked amount and its commitment were made from them with the same secret; and every output of a
signature that was made opens to the amount of its payment, also after the signature was written and
read with its counts. -/
theorem openOutput_recovers :
    (∀ (s : Signature) (index : ℕ) (secret : Key) (amount : UInt64) (mask : C.Scalar),
      openOutput C s index secret = .ok (amount, mask) ↔
        ∃ masked coin, s.maskedAmounts[index]? = some masked ∧ s.outputs[index]? = some coin ∧
          masked.Masks C mask amount secret ∧
            C.pointKey (commit C amount mask) = coin.commitment) ∧
    ∀ (message : Key) (rings : List (List Coin)) (spent : List (Spent C))
      (payments : List Payment) (fee : UInt64) (e e' : Entropy) (s : Signature),
      (∀ indices, signSimple C message rings indices spent payments fee e = .ok (s, e') →
        Recovers C s payments ∧ ∀ mixin < maxSize, (∀ ring ∈ rings, ring.length = mixin + 1) →
          RecoversRead C s payments spent.length mixin) ∧
      ∀ index, signFull C message rings index spent payments fee e = .ok (s, e') →
        Recovers C s payments ∧ ∀ mixin < maxSize, rings.length = mixin + 1 →
          RecoversRead C s payments spent.length mixin := by
  refine ⟨fun s index secret amount mask => openOutput_eq_ok_iff hscalar hkey horder, ?_⟩
  intro message rings spent payments fee e e' s
  refine ⟨fun indices h => ?_, fun index h => ?_⟩
  · obtain ⟨-, paid, spends, proofs, hpaid, -, -, -, -, -, hs⟩ := of_signSimple ⟨e, e', h⟩
    have hrecovers : Recovers C s payments :=
      recovers_of_pay hamount hpoint hscalar hkey horder hpaid (by rw [hs]; rfl) (by rw [hs]; rfl)
    refine ⟨hrecovers, fun mixin hmixin hrings => ?_⟩
    exact recoversRead_of_recovers hmixin (hasShape_of_signSimple ⟨e, e', h⟩ hrings) hrecovers
  · obtain ⟨-, paid, m, proof, hpaid, -, -, hs⟩ := of_signFull ⟨e, e', h⟩
    have hrecovers : Recovers C s payments :=
      recovers_of_pay hamount hpoint hscalar hkey horder hpaid (by rw [hs]; rfl) (by rw [hs]; rfl)
    refine ⟨hrecovers, fun mixin hmixin hrings => ?_⟩
    have hshape := hasShape_of_signFull ⟨e, e', h⟩
    rw [hrings] at hshape
    exact recoversRead_of_recovers hmixin hshape hrecovers

end

open Residue (wideGroup wideOrder wideOrder_pos)

def tenOwned : Spent wideGroup :=
  ⟨Residue.ofNat wideOrder_pos 5, Residue.ofNat wideOrder_pos 7, 10⟩

theorem toList_scalarKey_wideGroup (a : wideGroup.Scalar) :
    (wideGroup.scalarKey a).toList = Bytes.ofNatLE 32 (residue a).val := by
  have hval : (residue a).val = Fin.val (n := wideOrder) a := Residue.val_finEquiv _
  rw [hval]
  rfl

/-- The recipients of three and five, who share different secrets, read the signature and open their
outputs. -/
theorem openOutput_recovers_wideGroup : ∃ s e',
    signSimple wideGroup .zero [[tenOwned.coin, tenOwned.coin]] [1] [tenOwned]
      [⟨.zero, 3, .replicate 32 1⟩, ⟨.zero, 5, .replicate 32 2⟩] 2 ⟨fun k => UInt8.ofNat k, 0⟩ =
        .ok (s, e') ∧
    ∃ s', Signature.parse 1 2 1 (Reader.ofBytes s.toBytes) = (.ok s', ⟨s.toBytes.length, []⟩) ∧
      (∃ mask, openOutput wideGroup s' 0 (.replicate 32 1) = .ok (3, mask)) ∧
      ∃ mask, openOutput wideGroup s' 1 (.replicate 32 2) = .ok (5, mask) := by
  have hpoint := KeyGroup.Lawful.point?_pointKey (C := wideGroup)
  have hcoin : tenOwned.coin.HasPoints wideGroup := tenOwned.hasPoints_coin
  have hsignable : SimpleSignable wideGroup [[tenOwned.coin, tenOwned.coin]] [1] [tenOwned]
      [⟨.zero, 3, .replicate 32 1⟩, ⟨.zero, 5, .replicate 32 2⟩] 2 :=
    ⟨by simp, rfl, rfl, by simp, ⟨rfl, by decide⟩, by simp [hcoin]⟩
  obtain ⟨s, e', hs⟩ := total_signSimple hpoint hsignable ⟨fun k => UInt8.ofNat k, 0⟩
  obtain ⟨-, hrecovered⟩ := openOutput_recovers (C := wideGroup)
    KeyGroup.Lawful.order_nsmul_amountBase hpoint KeyGroup.Lawful.scalar?_eq_some_iff
    toList_scalarKey_wideGroup (by decide)
  obtain ⟨-, hread⟩ := (hrecovered .zero [[tenOwned.coin, tenOwned.coin]] [tenOwned]
    [⟨.zero, 3, .replicate 32 1⟩, ⟨.zero, 5, .replicate 32 2⟩] 2 _ e' s).1 [1] hs
  obtain ⟨s', hparse, hopen⟩ := hread 1 (by simp [maxSize, UInt64.size]) (by simp)
  exact ⟨s, e', hs, s', hparse, hopen 0 ⟨.zero, 3, .replicate 32 1⟩ rfl,
    hopen 1 ⟨.zero, 5, .replicate 32 2⟩ rfl⟩

end ConfidentialTx.Confidential
