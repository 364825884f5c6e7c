import ConfidentialTx.RangeProof
import ConfidentialTx.Proofs.Borromean
import ConfidentialTx.Proofs.Commitment
import ConfidentialTx.Proofs.Group.Residue

/-! Range proofs. What is proved is valid, and its commitment opens to the amount; and whatever is
valid, with the bits of its commitment opened, has a commitment that opens to their number. -/
namespace ConfidentialTx

theorem sum_testBit (v n : ℕ) :
    ((List.range n).map fun i => if v.testBit i then 2 ^ i else 0).sum = v % 2 ^ n := by
  induction n with
  | zero => simp [Nat.mod_one]
  | succ n ih =>
    have hbit : (if v.testBit n then 2 ^ n else 0) = 2 ^ n * (v.testBit n).toNat := by
      cases v.testBit n <;> simp
    rw [List.range_succ, List.map_append, List.sum_append, ih, List.map_singleton,
      List.sum_singleton, hbit, Nat.toNat_testBit, Nat.mod_pow_succ]

theorem sum_bits_lt (bit : ℕ → Bool) (n : ℕ) :
    ((List.range n).map fun i => if bit i then 2 ^ i else 0).sum < 2 ^ n := by
  induction n with
  | zero => simp
  | succ n ih =>
    have hbit : (if bit n then 2 ^ n else 0) ≤ 2 ^ n := by
      cases bit n <;> simp
    rw [List.range_succ, List.map_append, List.sum_append, List.map_singleton,
      List.sum_singleton, pow_succ]
    omega

open KeyGroup.ScalarAction

variable {C : KeyGroup}

namespace RangeProof

open Commitment

theorem check_eq_ok_iff {commitment : Key} {p : RangeProof} : check C commitment p = .ok () ↔
    ∃ (P : C.Point) (points : Tuple C.Point 64), C.point? commitment = some P ∧
      p.bits.mapM C.point? 64 = some points ∧
      C.pointKey (total C C.zero points.toList) = C.pointKey P ∧
      Borromean.verifyRings C p.signature points
        (Tuple.zipWith C.sub points (amountPowers C)) = true := by
  rw [check]
  cases C.point? commitment with
  | none => simp
  | some P =>
    cases p.bits.mapM C.point? 64 with
    | none => simp
    | some points =>
      by_cases hsum : C.pointKey (total C C.zero points.toList) = C.pointKey P
      · simp [hsum]
      · simp [hsum]

theorem total_prove (v : UInt64) : (prove C v).Total := by
  refine (Draw.total_tuple fun b _ => ?_).bind fun rings _ => ?_
  · exact (Draw.total_scalar C).bind fun mask _ => Draw.total_pure _
  · exact (Borromean.total_signRings rings).bind fun signature _ => Draw.total_pure _

end RangeProof

variable [KeyGroup.ScalarAction C]

theorem Commitment.doublings_eq (n : ℕ) (P : C.Point) :
    (doublings C n P).toList = (List.range n).map fun i => 2 ^ i • P := by
  induction n generalizing P with
  | zero => rfl
  | succ n ih =>
    have hstep : ∀ i, 2 ^ i • (P + P) = 2 ^ (i + 1) • P := fun i => by
      rw [← two_nsmul, ← mul_nsmul', ← pow_succ]
    rw [doublings, Tuple.toList_cons, ih, add_eq, List.range_succ_eq_map, List.map_cons,
      List.map_map, pow_zero, one_nsmul]
    simp only [hstep]
    rfl

namespace RangeProof

open Commitment

/-! ## Completeness -/

/-- A bit is committed to with the power of two that it stands for. -/
structure Commits (bit : Bool) (k : ℕ) (r : Borromean.Ring C) : Prop where
  isOwned : r.IsOwned
  first_eq : r.first = (if bit then k else 0) • C.amountBase + C.smulBase r.secret
  second_eq : r.second = C.sub r.first (k • C.amountBase)
  isSecond_eq : r.isSecond = bit

theorem commits_of_commitBit {bit : Bool} {k : ℕ} {r : Borromean.Ring C}
    (h : (commitBit C bit (k • C.amountBase)).Yields r) : Commits bit k r := by
  obtain ⟨mask, -, h⟩ := h.of_bind
  rw [Draw.yields_pure_iff.mp h]
  cases bit with
  | false => exact ⟨by simp [Borromean.Ring.IsOwned], by simp, rfl, rfl⟩
  | true => exact ⟨by simp [Borromean.Ring.IsOwned, sub_eq, add_eq], by simp [add_eq, add_comm],
      rfl, rfl⟩

theorem commits_of_mapM {v : UInt64} {rings : Tuple (Borromean.Ring C) 64}
    (h : ((Tuple.zipWith Prod.mk (amountBits v) (amountPowers C)).mapM
      (fun b => commitBit C b.1 b.2) 64).Yields rings) :
    List.Forall₂ (fun i r => Commits (v.toNat.testBit i) (2 ^ i) r) (List.range 64)
      rings.toList := by
  have hbits : (Tuple.zipWith Prod.mk (amountBits v) (amountPowers C)).toList =
      (List.range 64).map fun i => (v.toNat.testBit i, 2 ^ i • C.amountBase) := by
    rw [Tuple.toList_zipWith, amountPowers, doublings_eq, amountBits, List.zipWith_map,
      List.zipWith_self]
  have hall := h.of_tuple
  rw [hbits, List.forall₂_map_left_iff] at hall
  exact hall.imp fun _ _ => commits_of_commitBit

theorem zipWith_second {l : List ℕ} {f : ℕ → Bool} {rings : List (Borromean.Ring C)}
    (h : List.Forall₂ (fun i r => Commits (f i) (2 ^ i) r) l rings) :
    List.zipWith C.sub (rings.map (·.first)) (l.map fun i => 2 ^ i • C.amountBase) =
      rings.map (·.second) := by
  induction h with
  | nil => rfl
  | cons hr _ ih => rw [List.map_cons, List.map_cons, List.zipWith_cons_cons, ih, List.map_cons,
      hr.second_eq]

section

variable (hamount : order C • C.amountBase = 0) (hpoint : ∀ P, C.point? (C.pointKey P) = some P)
  (hscalar : ∀ k a, C.scalar? k = some a ↔ k = C.scalarKey a)
include hamount hpoint hscalar

theorem of_prove {v : UInt64} {p : Proved C} (h : (prove C v).Yields p) :
    p.commitment = C.pointKey (commit C v p.mask) ∧ check C p.commitment p.proof = .ok () := by
  obtain ⟨rings, hrings, h⟩ := h.of_bind
  obtain ⟨signature, hsignature, h⟩ := h.of_bind
  rw [Draw.yields_pure_iff.mp h]
  have hall := commits_of_mapM hrings
  have howned : ∀ r ∈ rings.toList, r.IsOwned := forall_mem_right hall fun _ _ hr => hr.isOwned
  have hvalid := Borromean.verifyRings_signRings hscalar howned hsignature
  have hbits : (rings.map fun r => C.pointKey r.first).mapM C.point? 64 =
      some (rings.map (·.first)) := by
    rw [Tuple.mapM_eq_some_iff, Option.mapM_eq_some_iff]
    simp [hpoint, List.forall₂_map_left_iff, List.forall₂_map_right_iff, List.forall₂_same]
  have hshifted : Tuple.zipWith C.sub (rings.map (·.first)) (amountPowers C) =
      rings.map (·.second) := by
    apply Tuple.ext
    rw [Tuple.toList_zipWith, amountPowers, doublings_eq]
    exact zipWith_second hall
  refine ⟨?_, ?_⟩
  -- The bits add up to the amount because there are as many as it can have.
  · have hv : v.toNat % 2 ^ 64 = v.toNat := Nat.mod_eq_of_lt v.toNat_lt
    have hsum := sum_of_forall₂ (hall.imp fun _ _ hr => hr.first_eq)
    rw [sum_testBit, hv] at hsum
    simp only [total_eq, zero_eq, zero_add, Tuple.toList_map, hsum,
      commit_eq_nsmul_add hamount]
  · exact check_eq_ok_iff.mpr ⟨_, _, hpoint _, hbits, rfl, by rw [hshifted]; exact hvalid⟩

/-- On every stream, every amount gets a commitment to itself and a proof that is accepted. -/
theorem verify_prove (v : UInt64) (e : Entropy) : ∃ p e', prove C v e = .ok (p, e') ∧
    p.commitment = C.pointKey (commit C v p.mask) ∧ verify C p.commitment p.proof = true := by
  obtain ⟨p, e', hp⟩ : ∃ p e', prove C v e = .ok (p, e') := total_prove v e
  obtain ⟨hcommitment, hcheck⟩ := of_prove hamount hpoint hscalar ⟨e, e', hp⟩
  refine ⟨p, e', hp, hcommitment, ?_⟩
  rw [verify, hcheck]
  rfl

end

/-- The largest amount, in a group whose order is smaller. -/
theorem verify_prove_residue : ∃ p e',
    prove Residue.group 0xffffffffffffffff ⟨fun k => UInt8.ofNat k, 0⟩ = .ok (p, e') ∧
      p.commitment = Residue.group.pointKey (commit Residue.group 0xffffffffffffffff p.mask) ∧
      verify Residue.group p.commitment p.proof = true := by
  exact verify_prove KeyGroup.Lawful.order_nsmul_amountBase KeyGroup.Lawful.point?_pointKey
    KeyGroup.Lawful.scalar?_eq_some_iff _ _

/-! ## Openings of bits -/

variable (C) in
/-- The key of a bit commitment with the logarithm of what the commitment hides: of the point itself
for a zero, and of what is left of it without `2 ^ i * H` for a one. -/
def OpensBit (i : ℕ) (key : Key) (bit : Bool) (mask : C.Scalar) : Prop :=
  ∃ P, C.point? key = some P ∧
    (if bit then C.sub P (2 ^ i • C.amountBase) else P) = C.smulBase mask

theorem OpensBit.eq_add {i : ℕ} {key : Key} {bit : Bool} {mask : C.Scalar} {P : C.Point}
    (h : OpensBit C i key bit mask) (hP : C.point? key = some P) :
    P = (if bit then 2 ^ i else 0) • C.amountBase + C.smulBase mask := by
  obtain ⟨Q, hQ, hmask⟩ := h
  obtain rfl := Option.some.inj (hP.symm.trans hQ)
  cases bit with
  | false => simpa using hmask
  | true =>
    rw [if_pos rfl, sub_eq] at hmask
    rw [if_pos rfl, ← hmask, add_sub_cancel]

theorem zipWith_amountPowers (points : Tuple C.Point 64) :
    (Tuple.zipWith C.sub points (amountPowers C)).toList =
      points.toList.mapIdx fun i P => C.sub P (2 ^ i • C.amountBase) := by
  rw [Tuple.toList_zipWith, amountPowers, doublings_eq]
  apply List.ext_getElem
  · simp
  · intro i h₁ h₂
    simp

theorem points_eq_of_opensBit {keys : List Key} {points : List C.Point} {bit : ℕ → Bool}
    {mask : ℕ → C.Scalar} (hpoints : List.Forall₂ (fun k P => C.point? k = some P) keys points)
    (hopen : ∀ i k, keys[i]? = some k → OpensBit C i k (bit i) (mask i)) :
    points = (List.range keys.length).map fun i =>
      (if bit i then 2 ^ i else 0) • C.amountBase + C.smulBase (mask i) := by
  apply List.ext_getElem
  · simp [hpoints.length_eq]
  · intro i h₁ h₂
    obtain ⟨k, hk, hP⟩ := exists_getElem?_of_forall₂ hpoints (List.getElem?_eq_getElem h₁)
    rw [List.getElem_map, List.getElem_range]
    exact (hopen i k hk).eq_add hP

/-- Where a proof is accepted and its bits are opened, the commitment opens to the number that they
spell, which is an amount, under the sum of their masks. -/
theorem opens_of_verify (hamount : order C • C.amountBase = 0)
    (hpoint : ∀ P, C.point? (C.pointKey P) = some P) {commitment : Key} {p : RangeProof}
    (h : verify C commitment p = true) {bit : ℕ → Bool} {mask : ℕ → C.Scalar}
    (hopen : ∀ i k, p.bits.toList[i]? = some k → OpensBit C i k (bit i) (mask i)) :
    ∃ (v : UInt64) (points : List C.Point),
      v.toNat = ((List.range 64).map fun i => if bit i then 2 ^ i else 0).sum ∧
      C.point? commitment = some (commit C v
        (((List.range 64).map mask).foldl C.scalarAdd (C.scalarOfAmount 0))) ∧
      p.bits.toList.mapM C.point? = some points ∧
      Borromean.verify C p.signature points
        (points.mapIdx fun i P => C.sub P (2 ^ i • C.amountBase)) = true := by
  obtain ⟨⟨⟩, hcheck⟩ := Except.exists_eq_ok h
  obtain ⟨P, points, hP, hpoints, hsum, hrings⟩ := check_eq_ok_iff.mp hcheck
  have hv : (UInt64.ofNat ((List.range 64).map fun i => if bit i then 2 ^ i else 0).sum).toNat =
      ((List.range 64).map fun i => if bit i then 2 ^ i else 0).sum := by
    rw [UInt64.toNat_ofNat', Nat.mod_eq_of_lt (sum_bits_lt bit 64)]
  refine ⟨_, points.toList, hv, ?_, Tuple.mapM_eq_some_iff.mp hpoints, ?_⟩
  · have heq := points_eq_of_opensBit
      (Option.mapM_eq_some_iff.mp (Tuple.mapM_eq_some_iff.mp hpoints)) hopen
    have hkey := congrArg C.point? hsum
    rw [hpoint, hpoint, Option.some.injEq, total_eq, zero_eq, zero_add, heq,
      Tuple.length_toList, sum_of_forall₂ (List.forall₂_same.mpr fun i _ => rfl)] at hkey
    rw [hP, ← hkey, commit_eq_nsmul_add hamount, hv]
  · rw [← zipWith_amountPowers, Borromean.verify, Tuple.ofList?_toList, Tuple.ofList?_toList]
    exact hrings

theorem exists_opensBit_of_prove (hpoint : ∀ P, C.point? (C.pointKey P) = some P) {v : UInt64}
    {p : Proved C} (h : (prove C v).Yields p) : ∃ mask : ℕ → C.Scalar, ∀ i k,
      p.proof.bits.toList[i]? = some k → OpensBit C i k (v.toNat.testBit i) (mask i) := by
  obtain ⟨rings, hrings, h⟩ := h.of_bind
  obtain ⟨signature, -, h⟩ := h.of_bind
  rw [Draw.yields_pure_iff.mp h]
  refine ⟨fun i => (rings.toList[i]?.map (·.secret)).getD (C.scalarOfAmount 0), ?_⟩
  intro i k hk
  rw [Tuple.toList_map, List.getElem?_map, Option.map_eq_some_iff] at hk
  obtain ⟨r, hr, rfl⟩ := hk
  obtain ⟨j, hj, hcommits⟩ := exists_getElem?_of_forall₂ (commits_of_mapM hrings) hr
  obtain ⟨hlt, rfl⟩ := List.getElem?_eq_some_iff.mp hj
  rw [List.getElem_range] at hcommits
  have howned := hcommits.isOwned
  rw [Borromean.Ring.IsOwned, hcommits.isSecond_eq, hcommits.second_eq] at howned
  simp only [hr, Option.map_some, Option.getD_some]
  exact ⟨r.first, hpoint _, howned⟩

open Residue (wideGroup)

/-- The lowest, the third and the highest bit of a proof are set, and all of them are opened. -/
theorem opens_of_verify_wideGroup : ∃ (p : Proved wideGroup) (e' : Entropy)
    (mask : ℕ → wideGroup.Scalar) (v : UInt64) (points : List wideGroup.Point),
    prove wideGroup 0x8000000000000005 ⟨fun k => UInt8.ofNat k, 0⟩ = .ok (p, e') ∧
      v.toNat = ((List.range 64).map fun i =>
        if Nat.testBit 0x8000000000000005 i then 2 ^ i else 0).sum ∧
      wideGroup.point? p.commitment = some (commit wideGroup v
        (((List.range 64).map mask).foldl wideGroup.scalarAdd (wideGroup.scalarOfAmount 0))) ∧
      p.proof.bits.toList.mapM wideGroup.point? = some points ∧
      Borromean.verify wideGroup p.proof.signature points
        (points.mapIdx fun i P => wideGroup.sub P (2 ^ i • wideGroup.amountBase)) = true := by
  have hamount : order wideGroup • wideGroup.amountBase = 0 :=
    KeyGroup.Lawful.order_nsmul_amountBase
  have hpoint := KeyGroup.Lawful.point?_pointKey (C := wideGroup)
  have hscalar := KeyGroup.Lawful.scalar?_eq_some_iff (C := wideGroup)
  obtain ⟨p, e', hp⟩ : ∃ p e', prove wideGroup 0x8000000000000005 ⟨fun k => UInt8.ofNat k, 0⟩ =
    .ok (p, e') := total_prove _ _
  obtain ⟨-, hcheck⟩ := of_prove hamount hpoint hscalar ⟨_, e', hp⟩
  obtain ⟨mask, hmask⟩ := exists_opensBit_of_prove hpoint ⟨_, e', hp⟩
  have hverify : verify wideGroup p.commitment p.proof = true := by
    rw [verify, hcheck]
    rfl
  obtain ⟨v, points, hv, hcommitment, hpoints, hborromean⟩ :=
    opens_of_verify hamount hpoint hverify hmask
  exact ⟨p, e', mask, v, points, hp, hv, hcommitment, hpoints, hborromean⟩

end RangeProof
end ConfidentialTx
