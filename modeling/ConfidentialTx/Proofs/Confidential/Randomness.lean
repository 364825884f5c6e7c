import ConfidentialTx.Proofs.Confidential.FullCompleteness
import ConfidentialTx.Proofs.Confidential.SimpleCompleteness
import ConfidentialTx.Proofs.Entropy.Scalars
import ConfidentialTx.RingSignature

/-! How much randomness is used. Everything that is proved or signed is made from scalars whose number
follows from the numbers of inputs, outputs and ring members, whatever the secrets, the amounts and the
signer's place: these decide at which of its steps a scalar is drawn, but not how many are. -/
namespace ConfidentialTx

open Draw

variable {C : KeyGroup}

/-! ## Range proofs -/

namespace Borromean

/-- The number of scalars that a ring takes before the challenge is known. -/
def Ring.before (r : Ring C) : ℕ := if r.isSecond then 1 else 2

def Ring.after (r : Ring C) : ℕ := if r.isSecond then 1 else 0

theorem Ring.before_add_after (r : Ring C) : r.before + r.after = 2 := by
  rw [before, after]
  split <;> rfl

theorem fromScalars_openRing (r : Ring C) : (openRing C r).FromScalars C r.before := by
  rw [Ring.before]
  by_cases hr : r.isSecond
  · have hopen : (openRing C r).FromScalars C (1 + 0) := by
      refine fromScalars_scalar.bind fun nonce _ => ?_
      rw [if_pos hr]
      exact fromScalars_pure _
    rwa [if_pos hr]
  · have hopen : (openRing C r).FromScalars C (1 + (1 + 0)) := by
      refine fromScalars_scalar.bind fun nonce _ => ?_
      rw [if_neg hr]
      exact fromScalars_scalar.bind fun s _ => fromScalars_pure _
    rwa [if_neg hr]

theorem fromScalars_closeRing (challenge : C.Scalar) (o : Opened C) :
    (closeRing C challenge o).FromScalars C o.ring.after := by
  rw [closeRing, Ring.after]
  by_cases hr : o.ring.isSecond
  · rw [if_pos hr, if_pos hr]
    exact fromScalars_scalar.bind fun s _ => fromScalars_pure _
  · rw [if_neg hr, if_neg hr]
    exact fromScalars_pure _

theorem map_ring_of_openRing {rings : Tuple (Ring C) 64} {opened : Tuple (Opened C) 64}
    (h : (rings.mapM (openRing C) 64).Yields opened) :
    opened.toList.map (·.ring) = rings.toList := by
  have hsame : List.Forall₂ (· = ·) rings.toList (opened.toList.map (·.ring)) :=
    List.forall₂_map_right_iff.mpr (h.of_tuple.imp fun _ _ ho => (of_openRing ho).ring_eq.symm)
  rw [List.forall₂_eq_eq_eq] at hsame
  exact hsame.symm

/-- A ring takes two scalars, one of them late if it is the second point that is the signer's. -/
theorem fromScalars_signRings (rings : Tuple (Ring C) 64) :
    (signRings C rings).FromScalars C 128 := by
  have hrun : (signRings C rings).FromScalars C
      ((rings.toList.map Ring.before).sum + ((rings.toList.map Ring.after).sum + 0)) := by
    refine (fromScalars_tuple fun r _ => fromScalars_openRing r).bind fun opened hopened => ?_
    rw [← map_ring_of_openRing hopened, List.map_map]
    exact (fromScalars_tuple fun o _ => fromScalars_closeRing _ o).bind fun _ _ => fromScalars_pure _
  simp only [Nat.add_zero, ← List.sum_map_add, Ring.before_add_after, List.map_const',
    rings.length_toList, List.sum_replicate] at hrun
  exact hrun

end Borromean

namespace RangeProof

theorem fromScalars_commitBit (bit : Bool) (power : C.Point) :
    (commitBit C bit power).FromScalars C 1 :=
  fromScalars_scalar.bind fun _ _ => fromScalars_pure _

theorem fromScalars_prove (amount : UInt64) : (prove C amount).FromScalars C 192 := by
  have hbits : ((Tuple.zipWith Prod.mk (amountBits amount) (Commitment.amountPowers C)).mapM
      (fun b => commitBit C b.1 b.2) 64).FromScalars C 64 := by
    have hrun := fromScalars_tuple (C := C) (k := fun _ => 1)
      (t := Tuple.zipWith Prod.mk (amountBits amount) (Commitment.amountPowers C))
      fun b _ => fromScalars_commitBit b.1 b.2
    rwa [List.map_const', Tuple.length_toList] at hrun
  exact hbits.bind fun rings _ =>
    (Borromean.fromScalars_signRings rings).bind fun _ _ => fromScalars_pure _

end RangeProof

/-! ## Layered ring signatures -/

namespace Mlsag

theorem fromScalars_simulate (message : Key) (images : List C.Point) (c : C.Scalar)
    (columns : List (Column C)) :
    (simulate C message images c columns).FromScalars C (columns.map List.length).sum := by
  induction columns generalizing c with
  | nil => exact fromScalars_pure _
  | cons column columns ih =>
    rw [List.map_cons, List.sum_cons]
    exact (fromScalars_scalars column.length).bind fun responses _ =>
      (ih _).bind fun rest _ => fromScalars_pure _

/-- As many scalars as there are layers in all columns: the signer's own takes nonces. -/
theorem fromScalars_signBetween (message : Key) (linkable : ℕ) (secrets : List C.Scalar)
    (before : List (Column C)) (own : Column C) (after : List (Column C)) :
    (signBetween C message linkable secrets before own after).FromScalars C
      ((before ++ own :: after).map List.length).sum := by
  have hrun : (signBetween C message linkable secrets before own after).FromScalars C
      (own.length + ((after.map List.length).sum + ((before.map List.length).sum + 0))) :=
    (fromScalars_scalars own.length).bind fun nonces _ =>
      (fromScalars_simulate _ _ _ after).bind fun forth _ =>
        (fromScalars_simulate _ _ _ before).bind fun back _ => fromScalars_pure _
  have htotal : ((before ++ own :: after).map List.length).sum =
      own.length + ((after.map List.length).sum + ((before.map List.length).sum + 0)) := by
    rw [List.map_append, List.sum_append, List.map_cons, List.sum_cons]
    omega
  rwa [htotal]

theorem fromScalars_sign (message : Key) (matrix : List (List Key)) (secrets : List C.Scalar)
    (index linkable : ℕ) : (sign C message matrix secrets index linkable).FromScalars C
      (matrix.map List.length).sum := by
  refine fromScalars_lift_bind fun rows _ => ?_
  split
  · exact fromScalars_throw _
  split
  · exact fromScalars_throw _
  rename_i hindex
  split
  · exact fromScalars_throw _
  split
  · exact fromScalars_throw _
  rename_i columns hcolumns
  have hdecoded := Option.mapM_eq_some_iff.mp hcolumns
  have hlengths : columns.map List.length = matrix.map List.length := by
    have hsame : List.Forall₂ (· = ·) (matrix.map List.length) (columns.map List.length) := by
      rw [List.forall₂_map_left_iff, List.forall₂_map_right_iff]
      refine hdecoded.imp fun keys column hcolumn => ?_
      rw [← (decodeKeys_eq_some_iff.mp hcolumn).1, List.length_map]
    rw [List.forall₂_eq_eq_eq] at hsame
    exact hsame.symm
  have hown : columns[index]? = some (columns.getD index []) := by
    have hlength := hdecoded.length_eq
    rw [List.getD_eq_getElem?_getD, List.getElem?_eq_getElem (by omega), Option.getD_some]
  have hrun := fromScalars_signBetween message linkable secrets (columns.take index)
    (columns.getD index []) (columns.drop (index + 1))
  rwa [take_append_cons_drop hown, hlengths] at hrun

end Mlsag

/-! ## Ring signatures -/

namespace RingSignature

theorem fromScalars_decoy (image : C.Point) (key : Key) : (decoy C image key).FromScalars C 2 := by
  rw [decoy]
  split
  · exact fromScalars_throw _
  · exact fromScalars_scalar.bind fun _ _ => fromScalars_scalar.bind fun _ _ => fromScalars_pure _

theorem fromScalars_decoys (image : C.Point) (keys : List Key) :
    (keys.mapM (decoy C image)).FromScalars C (2 * keys.length) :=
  fromScalars_mapM_const fun key _ => fromScalars_decoy image key

theorem fromScalars_signAt (message : Digest) (mixins : List Key) (secret : C.Scalar)
    (image : C.Point) (index : ℕ) :
    (signAt C message mixins secret image index).FromScalars C (1 + 2 * mixins.length) := by
  have hrun : (signAt C message mixins secret image index).FromScalars C
      (1 + (2 * (mixins.take index).length + (2 * (mixins.drop index).length + 0))) :=
    fromScalars_scalar.bind fun _ _ => (fromScalars_decoys image _).bind fun _ _ =>
      (fromScalars_decoys image _).bind fun _ _ => fromScalars_pure _
  have hsplit : (mixins.take index).length + (mixins.drop index).length = mixins.length := by
    rw [← List.length_append, List.take_append_drop]
  rwa [Nat.add_zero, ← Nat.mul_add, hsplit] at hrun

end RingSignature

/-! ## Confidential signatures -/

namespace Confidential

theorem fromScalars_pay (payment : Payment) : (pay C payment).FromScalars C 192 :=
  (RangeProof.fromScalars_prove payment.amount).bind fun _ _ => fromScalars_pure _

theorem fromScalars_pays (payments : List Payment) :
    (payments.mapM (pay C)).FromScalars C (192 * payments.length) :=
  fromScalars_mapM_const fun payment _ => fromScalars_pay payment

theorem sum_length_of_forall₂ {α : Type} {R : α → List Key → Prop} {as : List α}
    {matrix : List (List Key)} {rows : ℕ} (h : List.Forall₂ R as matrix)
    (hrows : ∀ a column, R a column → column.length = rows) :
    (matrix.map List.length).sum = rows * as.length := by
  induction h with
  | nil => rfl
  | cons hcolumn _ ih =>
    rw [List.map_cons, List.sum_cons, ih, hrows _ _ hcolumn, List.length_cons, Nat.mul_succ,
      Nat.add_comm]

theorem sum_length_fullMatrix {rings : List (List Coin)} {outputs : List Coin} {fee : UInt64}
    {matrix : List (List Key)} (h : Mlsag.fullMatrix C rings outputs fee = .ok matrix) :
    (matrix.map List.length).sum = ((rings.headD []).length + 1) * rings.length := by
  obtain ⟨outs, -, hcolumns⟩ := Mlsag.fullMatrix_eq_ok_iff.mp h
  refine sum_length_of_forall₂ hcolumns fun coins column hcolumn => ?_
  obtain ⟨hcoins, points, -, rfl⟩ := Mlsag.fullColumn_eq_ok_iff.mp hcolumn
  rw [List.length_append, List.length_map, List.length_singleton, hcoins]

theorem sum_length_simpleMatrix {ring : List Coin} {pseudoOutput : Key} {matrix : List (List Key)}
    (h : Mlsag.simpleMatrix C ring pseudoOutput = .ok matrix) :
    (matrix.map List.length).sum = 2 * ring.length := by
  obtain ⟨pseudo, -, hcolumns⟩ := Mlsag.simpleMatrix_eq_ok_iff.mp h
  refine sum_length_of_forall₂ hcolumns fun coin column hcolumn => ?_
  obtain ⟨P, -, rfl⟩ := hcolumn
  rfl

theorem fromScalars_signFull (message : Key) (rings : List (List Coin)) (index : ℕ)
    (spent : List (Spent C)) (payments : List Payment) (fee : UInt64) :
    (signFull C message rings index spent payments fee).FromScalars C
      (192 * payments.length + (spent.length + 1) * rings.length) := by
  refine fromScalars_lift_bind fun _ hcheck => ?_
  obtain ⟨-, hrings, hcolumns, -⟩ := of_checkFull hcheck
  refine (fromScalars_pays payments).bind fun paid _ => ?_
  refine fromScalars_lift_bind fun matrix hmatrix => ?_
  rw [← length_headD_of_forall hrings hcolumns, ← sum_length_fullMatrix hmatrix]
  exact (Mlsag.fromScalars_sign ..).bind fun _ _ => fromScalars_pure _

theorem Spend.fromScalars_sign (message : Key) (x : Spend C) :
    (x.sign C message).FromScalars C (2 * x.ring.length) := by
  refine fromScalars_lift_bind fun matrix hmatrix => ?_
  rw [← sum_length_simpleMatrix hmatrix]
  exact Mlsag.fromScalars_sign ..

theorem fromScalars_drawPseudoMasks (inputs : ℕ) (total : C.Scalar) :
    (drawPseudoMasks C inputs total).FromScalars C (inputs - 1) :=
  (fromScalars_scalars _).bind fun _ _ => fromScalars_pure _

theorem fromScalars_signSimple (message : Key) (rings : List (List Coin)) (indices : List ℕ)
    (spent : List (Spent C)) (payments : List Payment) (fee : UInt64) :
    (signSimple C message rings indices spent payments fee).FromScalars C
      (192 * payments.length + (spent.length - 1 + 2 * (rings.map List.length).sum)) := by
  refine fromScalars_lift_bind fun _ hcheck => ?_
  obtain ⟨hne, hrings, hindices, -⟩ := checkSimple_eq_ok_iff.mp hcheck
  refine (fromScalars_pays payments).bind fun paid _ => ?_
  refine (fromScalars_drawPseudoMasks _ _).bind fun masks hmasks => ?_
  have hpos := List.length_pos_iff.mpr hne
  have hlength := length_of_drawPseudoMasks hmasks
  generalize hspends : (rings.zip (indices.zip (spent.zip masks))).map _ = spends
  obtain ⟨hring, -⟩ := map_spends hrings hindices (by omega) hspends.symm
  have htotal : (spends.map fun x => 2 * x.ring.length).sum = 2 * (rings.map List.length).sum := by
    rw [← hring, List.map_map, List.sum_map_mul_left]
    rfl
  rw [← htotal]
  exact (fromScalars_mapM fun x _ => x.fromScalars_sign _).bind fun _ _ => fromScalars_pure _

end Confidential

/-! ## What the shape tells -/

/-- How many bytes are drawn follows from the numbers of outputs, inputs, ring members and layers, and
from nothing else: for all streams, amounts, secrets, masks, keys and places of signers, whatever is
proved or signed takes the same number of bytes as anything else of its shape, and every 64 of them are
reduced to one scalar. A ring signature takes them after the signer's place was chosen. -/
theorem drawn_of_shape (C : KeyGroup) :
    (∀ amount, (RangeProof.prove C amount).TakesBytes C 12288) ∧
    (∀ message matrix secrets index linkable,
      (Mlsag.sign C message matrix secrets index linkable).TakesBytes C
        (64 * (matrix.map List.length).sum)) ∧
    (∀ message rings index spent payments fee,
      (Confidential.signFull C message rings index spent payments fee).TakesBytes C
        (12288 * payments.length + 64 * ((spent.length + 1) * rings.length))) ∧
    (∀ message rings indices spent payments fee,
      (Confidential.signSimple C message rings indices spent payments fee).TakesBytes C
        (12288 * payments.length + 64 * (spent.length - 1) +
          128 * (rings.map List.length).sum)) ∧
    (∀ message mixins secret image index,
      (RingSignature.signAt C message mixins secret image index).TakesBytes C
        (64 + 128 * mixins.length)) ∧
    (∀ attempts message mixins secret e signed e',
      RingSignature.sign C attempts message mixins secret e = .ok (signed, e') →
        ∃ image index m, C.point? (C.keyImage secret) = some image ∧
          below attempts (mixins.length + 1) e = .ok (index, m) ∧
            RingSignature.signAt C message mixins secret image index m = .ok (signed, e') ∧
              e'.drawn = m.drawn + (64 + 128 * mixins.length)) ∧
    ∀ {α β : Type} (bytes : ℕ) (d₁ : Draw α) (d₂ : Draw β), d₁.TakesBytes C bytes →
      d₂.TakesBytes C bytes → ∀ e₁ e₂ a b e₁' e₂', d₁ e₁ = .ok (a, e₁') → d₂ e₂ = .ok (b, e₂') →
        e₁'.drawn - e₁.drawn = bytes ∧ e₂'.drawn - e₂.drawn = bytes := by
  have hring : ∀ message mixins secret image index,
      (RingSignature.signAt C message mixins secret image index).TakesBytes C
        (64 + 128 * mixins.length) :=
    fun message mixins secret image index =>
      ⟨_, by omega, RingSignature.fromScalars_signAt message mixins secret image index⟩
  refine ⟨fun amount => ⟨_, rfl, RangeProof.fromScalars_prove amount⟩,
    fun message matrix secrets index linkable => ⟨_, rfl, Mlsag.fromScalars_sign ..⟩,
    fun message rings index spent payments fee => ⟨_, ?_, Confidential.fromScalars_signFull ..⟩,
    fun message rings indices spent payments fee => ⟨_, ?_, Confidential.fromScalars_signSimple ..⟩,
    hring, ?_, ?_⟩
  · omega
  · omega
  · intro attempts message mixins secret e signed e' h
    rw [RingSignature.sign] at h
    cases himage : C.point? (C.keyImage secret) with
    | none =>
      rw [himage] at h
      cases h
    | some image =>
      rw [himage] at h
      obtain ⟨index, m, hindex, hsigned⟩ := bind_eq_ok_iff.mp h
      exact ⟨image, index, m, rfl, hindex, hsigned, (hring ..).drawn_eq hsigned⟩
  · intro α β bytes d₁ d₂ h₁ h₂ e₁ e₂ a b e₁' e₂' hrun₁ hrun₂
    rw [h₁.drawn_eq hrun₁, h₂.drawn_eq hrun₂, Nat.add_sub_cancel_left, Nat.add_sub_cancel_left]
    exact ⟨rfl, rfl⟩

end ConfidentialTx
