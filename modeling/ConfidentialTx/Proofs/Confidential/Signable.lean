import ConfidentialTx.Proofs.Confidential.FullCompleteness
import ConfidentialTx.Proofs.Confidential.SimpleCompleteness
import ConfidentialTx.Proofs.Mlsag.Linking

/-! When confidential signatures can be made. All that can go wrong is found by the checks at the
start or is a ring member whose keys are no points; whatever is drawn, the rest comes to an end. -/
namespace ConfidentialTx

variable {C : KeyGroup}

variable (C) in
structure Coin.HasPoints (coin : Coin) : Prop where
  destination : (C.point? coin.destination).isSome = true
  commitment : (C.point? coin.commitment).isSome = true

theorem exists_haveCommitments_iff {coins : List Coin} : (∃ points, HaveCommitments C coins points) ↔
    ∀ coin ∈ coins, (C.point? coin.commitment).isSome = true := by
  rw [← Option.isSome_mapM_iff, Option.isSome_iff_exists]
  simp only [Option.mapM_eq_some_iff]

/-! ## Matrices of points -/

namespace Mlsag

theorem rowCount_simpleMatrix {ring : List Coin} {pseudoOutput : Key} {m : List (List Key)}
    (hring : ring ≠ []) (hm : simpleMatrix C ring pseudoOutput = .ok m) :
    rowCount m = .ok 2 ∧ m.length = ring.length := by
  obtain ⟨pseudo, -, hcolumns⟩ := simpleMatrix_eq_ok_iff.mp hm
  have hlength := hcolumns.length_eq
  refine ⟨rowCount_eq_ok_iff.mpr ⟨?_, by decide, forall_mem_right hcolumns ?_⟩, hlength.symm⟩
  · have hpos := List.length_pos_iff.mpr hring
    exact List.ne_nil_of_length_pos (by omega)
  · rintro coin column ⟨P, -, rfl⟩
    rfl

theorem rowCount_fullMatrix {rings : List (List Coin)} {outputs : List Coin} {fee : UInt64}
    {m : List (List Key)} (hrings : rings ≠ []) (hm : fullMatrix C rings outputs fee = .ok m) :
    rowCount m = .ok ((rings.headD []).length + 1) ∧ m.length = rings.length := by
  obtain ⟨outs, -, hcolumns⟩ := fullMatrix_eq_ok_iff.mp hm
  have hlength := hcolumns.length_eq
  refine ⟨rowCount_eq_ok_iff.mpr ⟨?_, Nat.succ_pos _, forall_mem_right hcolumns ?_⟩, hlength.symm⟩
  · have hpos := List.length_pos_iff.mpr hrings
    exact List.ne_nil_of_length_pos (by omega)
  · intro coins column hcolumn
    obtain ⟨hcount, points, -, rfl⟩ := fullColumn_eq_ok_iff.mp hcolumn
    simp [hcount]

section

variable (hpoint : ∀ P, C.point? (C.pointKey P) = some P)
include hpoint

theorem exists_simpleMatrix_iff {ring : List Coin} {pseudoOutput : Key} :
    (∃ m, simpleMatrix C ring pseudoOutput = .ok m ∧
        ∀ keys ∈ m, ∀ k ∈ keys, (C.point? k).isSome = true) ↔
      (C.point? pseudoOutput).isSome = true ∧ ∀ coin ∈ ring, coin.HasPoints C := by
  have hcolumn : ∀ (pseudo : C.Point) (coin : Coin),
      (∃ column, (∃ P, C.point? coin.commitment = some P ∧
        [coin.destination, C.pointKey (C.sub P pseudo)] = column) ∧
          ∀ k ∈ column, (C.point? k).isSome = true) ↔ coin.HasPoints C := by
    intro pseudo coin
    constructor
    · rintro ⟨_, ⟨P, hP, rfl⟩, hkeys⟩
      exact ⟨hkeys coin.destination (by simp), by rw [hP]; rfl⟩
    · rintro ⟨hdestination, hcommitment⟩
      obtain ⟨P, hP⟩ := Option.isSome_iff_exists.mp hcommitment
      exact ⟨_, ⟨P, hP, rfl⟩, by simp [hdestination, hpoint]⟩
  simp only [simpleMatrix_eq_ok_iff]
  constructor
  · rintro ⟨m, ⟨pseudo, hpseudo, hcolumns⟩, hkeys⟩
    refine ⟨by rw [hpseudo]; rfl, fun coin hcoin => ?_⟩
    exact (hcolumn pseudo coin).mp (exists_forall₂_and_iff.mp ⟨m, hcolumns, hkeys⟩ coin hcoin)
  · rintro ⟨hpseudo, hring⟩
    obtain ⟨pseudo, hpseudo⟩ := Option.isSome_iff_exists.mp hpseudo
    obtain ⟨m, hcolumns, hkeys⟩ := exists_forall₂_and_iff.mpr
      fun coin hcoin => (hcolumn pseudo coin).mpr (hring coin hcoin)
    exact ⟨m, ⟨pseudo, hpseudo, hcolumns⟩, hkeys⟩

theorem exists_fullColumn_iff {inputs : ℕ} {total : C.Point} {coins : List Coin} :
    (∃ column, fullColumn C inputs total coins = .ok column ∧
        ∀ k ∈ column, (C.point? k).isSome = true) ↔
      coins.length = inputs ∧ ∀ coin ∈ coins, coin.HasPoints C := by
  simp only [fullColumn_eq_ok_iff]
  constructor
  · rintro ⟨_, ⟨hcount, points, hpoints, rfl⟩, hkeys⟩
    refine ⟨hcount, fun coin hcoin => ⟨hkeys _ ?_, ?_⟩⟩
    · exact List.mem_append_left _ (List.mem_map_of_mem hcoin)
    · exact exists_haveCommitments_iff.mp ⟨points, hpoints⟩ coin hcoin
  · rintro ⟨hcount, hcoins⟩
    obtain ⟨points, hpoints⟩ := exists_haveCommitments_iff.mpr
      fun coin hcoin => (hcoins coin hcoin).commitment
    refine ⟨_, ⟨hcount, points, hpoints, rfl⟩, fun k hk => ?_⟩
    rcases List.mem_append.mp hk with hk | hk
    · obtain ⟨coin, hcoin, rfl⟩ := List.mem_map.mp hk
      exact (hcoins coin hcoin).destination
    · rw [List.mem_singleton.mp hk, hpoint]
      rfl

theorem exists_fullMatrix_iff {rings : List (List Coin)} {outputs : List Coin} {fee : UInt64} :
    (∃ m, fullMatrix C rings outputs fee = .ok m ∧
        ∀ keys ∈ m, ∀ k ∈ keys, (C.point? k).isSome = true) ↔
      (∀ coin ∈ outputs, (C.point? coin.commitment).isSome = true) ∧ ∀ coins ∈ rings,
        coins.length = (rings.headD []).length ∧ ∀ coin ∈ coins, coin.HasPoints C := by
  simp only [fullMatrix_eq_ok_iff]
  constructor
  · rintro ⟨m, ⟨outs, houts, hcolumns⟩, hkeys⟩
    refine ⟨exists_haveCommitments_iff.mp ⟨outs, houts⟩, fun coins hcoins => ?_⟩
    exact (exists_fullColumn_iff hpoint).mp
      (exists_forall₂_and_iff.mp ⟨m, hcolumns, hkeys⟩ coins hcoins)
  · rintro ⟨houtputs, hrings⟩
    obtain ⟨outs, houts⟩ := exists_haveCommitments_iff.mpr houtputs
    obtain ⟨m, hcolumns, hkeys⟩ := exists_forall₂_and_iff.mpr
      fun coins hcoins => (exists_fullColumn_iff hpoint).mpr (hrings coins hcoins)
    exact ⟨m, ⟨outs, houts, hcolumns⟩, hkeys⟩

end

end Mlsag

namespace Confidential

/-! ## Payments and pseudo outputs -/

theorem total_pay (payment : Payment) : (pay C payment).Total :=
  (RangeProof.total_prove payment.amount).bind fun _ _ => Draw.total_pure _

theorem total_drawPseudoMasks (inputs : ℕ) (total : C.Scalar) :
    (drawPseudoMasks C inputs total).Total :=
  (Draw.total_scalars C (inputs - 1)).bind fun _ _ => Draw.total_pure _

theorem exists_pointKey_of_pay {payment : Payment} {p : Paid C} (h : (pay C payment).Yields p) :
    ∃ P, p.coin.commitment = C.pointKey P := by
  obtain ⟨proved, hproved, h⟩ := h.of_bind
  obtain ⟨rings, -, hproved⟩ := hproved.of_bind
  obtain ⟨signature, -, hproved⟩ := hproved.of_bind
  rw [Draw.yields_pure_iff.mp h, Draw.yields_pure_iff.mp hproved]
  exact ⟨_, rfl⟩

/-! ## What can be signed -/

variable (C) in
structure SimpleSignable (rings : List (List Coin)) (indices : List ℕ) (spent : List (Spent C))
    (payments : List Payment) (fee : UInt64) : Prop where
  nonempty : spent ≠ []
  length_rings : rings.length = spent.length
  length_indices : indices.length = spent.length
  inside : ∀ r ∈ rings.zip indices, r.2 < r.1.length
  balanced : Balanced spent payments fee
  points : ∀ ring ∈ rings, ∀ coin ∈ ring, coin.HasPoints C

variable (C) in
structure FullSignable (rings : List (List Coin)) (index : ℕ) (spent : List (Spent C))
    (payments : List Payment) (fee : UInt64) : Prop where
  nonempty : spent ≠ []
  inside : index < rings.length
  columns : ∀ coins ∈ rings, coins.length = spent.length
  balanced : Balanced spent payments fee
  points : ∀ coins ∈ rings, ∀ coin ∈ coins, coin.HasPoints C

variable {message : Key} {rings : List (List Coin)} {spent : List (Spent C)}
  {payments : List Payment} {fee : UInt64} {s : Signature}

section

variable (hpoint : ∀ P, C.point? (C.pointKey P) = some P)
include hpoint

theorem Spend.total_sign {x : Spend C} (hindex : x.index < x.ring.length)
    (hring : ∀ coin ∈ x.ring, coin.HasPoints C) : (x.sign C message).Total := by
  have hpseudo : (C.point? (x.pseudoOutput C)).isSome = true := by
    rw [pseudoOutput, hpoint]
    rfl
  obtain ⟨m, hm, hkeys⟩ := (Mlsag.exists_simpleMatrix_iff hpoint).mpr ⟨hpseudo, hring⟩
  refine Draw.total_lift_bind hm ?_
  obtain ⟨hrows, hlength⟩ :=
    Mlsag.rowCount_simpleMatrix (List.ne_nil_of_length_pos (Nat.zero_lt_of_lt hindex)) hm
  exact Mlsag.total_sign hrows (by rwa [hlength]) (by simp) hkeys

theorem Spend.hasPoints_of_sign {x : Spend C} {proof : Mlsag.Signature}
    (h : (x.sign C message).Yields proof) : ∀ coin ∈ x.ring, coin.HasPoints C := by
  obtain ⟨m, hm, h⟩ := h.of_bind
  exact ((Mlsag.exists_simpleMatrix_iff hpoint).mp
    ⟨m, hm.of_lift, Mlsag.isSome_point?_of_sign h⟩).2

theorem total_signSimple {indices : List ℕ} (h : SimpleSignable C rings indices spent payments fee) :
    (signSimple C message rings indices spent payments fee).Total := by
  have hcheck := checkSimple_eq_ok_iff.mpr
    ⟨h.nonempty, h.length_rings, h.length_indices, h.inside, h.balanced⟩
  refine Draw.total_lift_bind hcheck ?_
  refine (Draw.total_mapM fun payment _ => total_pay payment).bind fun paid _ => ?_
  refine (total_drawPseudoMasks _ _).bind fun masks _ => ?_
  refine (Draw.total_mapM fun x hx => ?_).bind fun proofs _ => Draw.total_pure _
  obtain ⟨⟨ring, index, spent, mask⟩, hmem, rfl⟩ := List.mem_map.mp hx
  obtain ⟨i, hi⟩ := List.mem_iff_getElem?.mp hmem
  obtain ⟨hring, hrest⟩ := List.getElem?_zip_eq_some.mp hi
  obtain ⟨hindex, -⟩ := List.getElem?_zip_eq_some.mp hrest
  have hinside : (ring, index) ∈ rings.zip indices :=
    List.mem_of_getElem? (List.getElem?_zip_eq_some.mpr ⟨hring, hindex⟩)
  exact Spend.total_sign hpoint (h.inside _ hinside) (h.points ring (List.mem_of_getElem? hring))

theorem simpleSignable_of_signSimple {indices : List ℕ}
    (h : (signSimple C message rings indices spent payments fee).Yields s) :
    SimpleSignable C rings indices spent payments fee := by
  obtain ⟨hcheck, paid, spends, proofs, -, -, hring, -, -, hsigned, -⟩ := of_signSimple h
  obtain ⟨hne, hrings, hindices, hinside, hbalance⟩ := checkSimple_eq_ok_iff.mp hcheck
  refine ⟨hne, hrings, hindices, hinside, hbalance, ?_⟩
  rw [← hring, List.forall_mem_map]
  exact forall_mem_right hsigned.flip fun proof x hx => Spend.hasPoints_of_sign hpoint hx

theorem total_signFull {index : ℕ} (h : FullSignable C rings index spent payments fee) :
    (signFull C message rings index spent payments fee).Total := by
  have hcheck := checkFull_eq_ok_iff.mpr ⟨h.nonempty, h.inside, h.columns, h.balanced⟩
  refine Draw.total_lift_bind hcheck ?_
  refine (Draw.total_mapM fun payment _ => total_pay payment).bind fun paid hpaid => ?_
  have hrings : rings ≠ [] := List.ne_nil_of_length_pos (Nat.zero_lt_of_lt h.inside)
  have hhead := length_headD_of_forall hrings h.columns
  have houtputs : ∀ coin ∈ paid.map (·.coin), (C.point? coin.commitment).isSome = true := by
    rw [List.forall_mem_map]
    refine forall_mem_right hpaid.of_mapM fun payment p hp => ?_
    obtain ⟨P, hP⟩ := exists_pointKey_of_pay hp
    rw [hP, hpoint]
    rfl
  have hcolumns : ∀ coins ∈ rings,
      coins.length = (rings.headD []).length ∧ ∀ coin ∈ coins, coin.HasPoints C :=
    fun coins hcoins => ⟨by rw [h.columns coins hcoins, hhead], h.points coins hcoins⟩
  obtain ⟨m, hm, hkeys⟩ := (Mlsag.exists_fullMatrix_iff hpoint).mpr ⟨houtputs, hcolumns⟩
  refine Draw.total_lift_bind hm ?_
  obtain ⟨hrows, hlength⟩ := Mlsag.rowCount_fullMatrix hrings hm
  refine (Mlsag.total_sign ?_ ?_ ?_ hkeys).bind fun proof _ => Draw.total_pure _
  · rw [hrows, hhead, List.length_append, List.length_map, List.length_singleton]
  · rw [hlength]
    exact h.inside
  · simp

theorem fullSignable_of_signFull {index : ℕ}
    (h : (signFull C message rings index spent payments fee).Yields s) :
    FullSignable C rings index spent payments fee := by
  obtain ⟨hcheck, paid, m, proof, -, hm, hproof, -⟩ := of_signFull h
  obtain ⟨hne, hinside, hcolumns, hbalance⟩ := checkFull_eq_ok_iff.mp hcheck
  have hpoints := ((Mlsag.exists_fullMatrix_iff hpoint).mp
    ⟨m, hm, Mlsag.isSome_point?_of_sign hproof⟩).2
  exact ⟨hne, hinside, hcolumns, hbalance, fun coins hcoins => (hpoints coins hcoins).2⟩

/-- Whatever is drawn, signing succeeds exactly on arguments of matching lengths with indices inside
the rings, amounts that balance as numbers and ring members whose keys are those of points. -/
theorem signed_iff_signable (message : Key) (spent : List (Spent C)) (payments : List Payment)
    (fee : UInt64) (e : Entropy) :
    (∀ rings indices,
      (∃ s e', signSimple C message rings indices spent payments fee e = .ok (s, e')) ↔
        SimpleSignable C rings indices spent payments fee) ∧
      ∀ rings index,
        (∃ s e', signFull C message rings index spent payments fee e = .ok (s, e')) ↔
          FullSignable C rings index spent payments fee := by
  refine ⟨fun rings indices => ⟨?_, fun h => total_signSimple hpoint h e⟩,
    fun rings index => ⟨?_, fun h => total_signFull hpoint h e⟩⟩
  · rintro ⟨s, e', h⟩
    exact simpleSignable_of_signSimple hpoint ⟨e, e', h⟩
  · rintro ⟨s, e', h⟩
    exact fullSignable_of_signFull hpoint ⟨e, e', h⟩

end

theorem Spent.hasPoints_coin [KeyGroup.Lawful C] (x : Spent C) : x.coin.HasPoints C := by
  obtain ⟨hdestination, hcommitment⟩ := x.owns_coin
  exact ⟨by rw [hdestination]; rfl, by rw [hcommitment]; rfl⟩

/-- Three and four pay for five and a fee of two, but not for outputs that add up to the same only
modulo `2 ^ 64`. -/
theorem signed_iff_signable_residue : (∃ s e', signSimple Residue.group .zero
      [[(Spent.ofResidues 5 7 3).coin, (Spent.ofResidues 1 2 9).coin],
        [(Spent.ofResidues 6 8 4).coin]] [0, 0]
      [Spent.ofResidues 5 7 3, Spent.ofResidues 6 8 4] [⟨.zero, 5, .zero⟩] 2
      ⟨fun k => UInt8.ofNat k, 0⟩ = .ok (s, e')) ∧
    ¬ ∃ s e', signFull Residue.group .zero
      [[(Spent.ofResidues 5 7 3).coin, (Spent.ofResidues 6 8 4).coin]] 0
      [Spent.ofResidues 5 7 3, Spent.ofResidues 6 8 4]
      [⟨.zero, 5, .zero⟩, ⟨.zero, 0xffffffffffffffff, .zero⟩, ⟨.zero, 1, .zero⟩] 2
      ⟨fun k => UInt8.ofNat k, 0⟩ = .ok (s, e') := by
  have hsigned := fun payments => signed_iff_signable (C := Residue.group)
    KeyGroup.Lawful.point?_pointKey .zero [Spent.ofResidues 5 7 3, Spent.ofResidues 6 8 4] payments 2
    ⟨fun k => UInt8.ofNat k, 0⟩
  refine ⟨((hsigned _).1 _ _).mpr ⟨by simp, rfl, rfl, by simp, ⟨rfl, by decide⟩, ?_⟩, fun h => ?_⟩
  · simp [Spent.hasPoints_coin]
  · have hsum := (((hsigned _).2 _ _).mp h).balanced.sum_eq
    exact absurd hsum (by decide)

end Confidential
end ConfidentialTx
