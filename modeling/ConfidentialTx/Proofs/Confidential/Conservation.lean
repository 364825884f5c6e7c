import ConfidentialTx.Proofs.Confidential.SimpleCompleteness
import ConfidentialTx.Proofs.Group.Residue
import Mathlib.Tactic.Abel

/-! No value out of nothing. Where commitments balance, the amounts that they are opened to balance
as numbers, or else the openings give away the logarithm of the second generator. -/
namespace ConfidentialTx

open KeyGroup KeyGroup.ScalarAction

namespace Commitment

variable (C : KeyGroup)

/-- What a commitment is opened to. -/
structure Content where
  amount : UInt64
  mask : C.Scalar

variable {C}

def Content.commitment (c : Content C) : C.Point := commit C c.amount c.mask

abbrev Opens (keys : List Key) (contents : List (Content C)) : Prop :=
  List.Forall₂ (fun k c => C.point? k = some c.commitment) keys contents

theorem points_eq_of_opens {keys : List Key} {contents : List (Content C)} {points : List C.Point}
    (h : Opens keys contents) (hpoints : List.Forall₂ (fun k P => C.point? k = some P) keys points) :
    points = contents.map Content.commitment := by
  have hcontents : List.Forall₂ (fun k P => C.point? k = some P) keys
      (contents.map Content.commitment) := List.forall₂_map_right_iff.mpr h
  refine List.right_unique_forall₂' ?_ hpoints hcontents
  intro k P Q hP hQ
  exact Option.some.inj (hP.symm.trans hQ)

/-- The sum of the amounts, which has no bound. -/
def amounts (contents : List (Content C)) : ℕ := (contents.map fun c => c.amount.toNat).sum

theorem amounts_le (contents : List (Content C)) :
    amounts contents ≤ contents.length * (2 ^ 64 - 1) := by
  induction contents with
  | nil => simp [amounts]
  | cons c contents ih =>
    have hc := c.amount.toNat_lt
    simp only [amounts, List.map_cons, List.sum_cons, List.length_cons] at ih ⊢
    omega

variable [ScalarAction C]

def masks (contents : List (Content C)) : ZMod (order C) :=
  (contents.map fun c => residue c.mask).sum

/-- What goes in less what comes out, modulo the order. -/
def excess (ins outs : List (Content C)) (fee : UInt64) : ZMod (order C) :=
  amounts ins - amounts outs - fee.toNat

/-- The amounts balance as numbers, or the logarithm of the second generator is known from the
contents and the logarithm `x` of what is left over. -/
def Conserved (ins outs : List (Content C)) (fee : UInt64) (x : ZMod (order C)) : Prop :=
  amounts ins = amounts outs + fee.toNat ∨
    IsUnit (excess ins outs fee) ∧ C.amountBase =
      C.smulBase (residue.symm ((excess ins outs fee)⁻¹ * (x + masks outs - masks ins)))

theorem balanced_of_excess_eq_zero {ins outs : List (Content C)} {fee : UInt64}
    (hbound : (ins.length + outs.length + 1) * 2 ^ 64 ≤ order C) (h : excess ins outs fee = 0) :
    amounts ins = amounts outs + fee.toNat := by
  have hins := amounts_le ins
  have houts := amounts_le outs
  have hfee := fee.toNat_lt
  rw [excess, sub_sub, sub_eq_zero, ← Nat.cast_add, ZMod.natCast_eq_natCast_iff',
    Nat.mod_eq_of_lt (by omega), Nat.mod_eq_of_lt (by omega)] at h
  exact h

variable (hamount : order C • C.amountBase = 0)
include hamount

theorem ofFee_eq_multiple (fee : UInt64) :
    ofFee C fee = multiple C.amountBase hamount fee.toNat := by
  rw [ofFee, smul_eq, residue_ofAmount, val_nsmul hamount]

theorem commitment_eq_multiple (c : Content C) : c.commitment =
    multiple C.amountBase hamount c.amount.toNat +
      multiple base order_nsmul_base (residue c.mask) := by
  rw [Content.commitment, commit_eq_nsmul_add hamount, multiple_natCast, smulBase_eq_multiple]

theorem sum_commitment (contents : List (Content C)) : (contents.map Content.commitment).sum =
    multiple C.amountBase hamount (amounts contents : ℕ) +
      multiple base order_nsmul_base (masks contents) := by
  induction contents with
  | nil => simp [amounts, masks]
  | cons c contents ih =>
    rw [List.map_cons, List.sum_cons, ih, commitment_eq_multiple hamount]
    simp only [amounts, masks, List.map_cons, List.sum_cons, Nat.cast_add, map_add]
    abel

theorem conserved_of_sub_eq {ins outs : List (Content C)} {fee : UInt64} {x : ZMod (order C)}
    (hbound : (ins.length + outs.length + 1) * 2 ^ 64 ≤ order C)
    (h : (ins.map Content.commitment).sum - (ofFee C fee + (outs.map Content.commitment).sum) =
      multiple base order_nsmul_base x) : Conserved ins outs fee x := by
  -- A nonzero excess can be divided by, as the order is prime.
  by_cases hexcess : excess ins outs fee = 0
  · exact .inl (balanced_of_excess_eq_zero hbound hexcess)
  · refine .inr ⟨IsUnit.mk0 _ hexcess, ?_⟩
    have hmultiple : multiple C.amountBase hamount (excess ins outs fee) =
        multiple base order_nsmul_base (x + masks outs - masks ins) := by
      rw [sum_commitment hamount, sum_commitment hamount, ofFee_eq_multiple hamount] at h
      rw [map_sub _ (x + _), map_add, ← h, excess, map_sub, map_sub]
      abel
    rw [smulBase_eq_multiple, Equiv.apply_symm_apply]
    exact eq_multiple_of_multiple_eq hamount order_nsmul_base hexcess hmultiple

end Commitment

open Commitment

section

variable {C : KeyGroup}

theorem length_of_opens {coins : List Coin} {contents : List (Content C)}
    (h : Opens (coins.map (·.commitment)) contents) : coins.length = contents.length := by
  rw [← h.length_eq, List.length_map]

variable [ScalarAction C]

theorem total_of_opens {coins : List Coin} {contents : List (Content C)} {points : List C.Point}
    (h : Opens (coins.map (·.commitment)) contents) (hpoints : HaveCommitments C coins points)
    (start : C.Point) :
    Commitment.total C start points = start + (contents.map Content.commitment).sum := by
  rw [points_eq_of_opens h (List.forall₂_map_left_iff.mpr hpoints),
    total_eq]

variable (hamount : order C • C.amountBase = 0) (hkeys : ∀ P, C.point? (C.pointKey P) = some P)
include hamount hkeys

theorem Confidential.conserved_of_checkSimpleBalance {s : Signature} {ins outs : List (Content C)}
    (hcheck : checkSimpleBalance C s = .ok ())
    (hbound : (s.pseudoOutputs.length + s.outputs.length + 1) * 2 ^ 64 ≤ order C)
    (hins : Opens s.pseudoOutputs ins) (houts : Opens (s.outputs.map (·.commitment)) outs) :
    Conserved ins outs s.fee 0 := by
  have hkind : s.kind = .simple := by
    by_contra hkind
    rw [checkSimpleBalance, if_pos hkind] at hcheck
    cases hcheck
  obtain ⟨pseudos, points, hpseudos, hpoints, hbalance, -⟩ :=
    (checkSimpleBalance_eq_ok_iff hkind).mp hcheck
  have hsums := congrArg C.point? hbalance
  rw [hkeys, hkeys, Option.some.injEq, points_eq_of_opens hins (Option.mapM_eq_some_iff.mp hpseudos),
    total_eq, zero_eq, zero_add, total_of_opens houts hpoints] at hsums
  rw [hins.length_eq, length_of_opens houts] at hbound
  refine conserved_of_sub_eq hamount hbound ?_
  rw [hsums, sub_self, map_zero]

theorem Mlsag.conserved_of_fullMatrix {rings : List (List Coin)} {outputs coins : List Coin}
    {fee : UInt64} {m : List (List Key)} {i : ℕ} {column : List Key} {key : Key} {z : C.Scalar}
    {ins outs : List (Content C)} (hmatrix : fullMatrix C rings outputs fee = .ok m)
    (hcoins : rings[i]? = some coins) (hcolumn : m[i]? = some column)
    (hkey : column.getLast? = some key) (hz : C.point? key = some (C.smulBase z))
    (hbound : (coins.length + outputs.length + 1) * 2 ^ 64 ≤ order C)
    (hins : Opens (coins.map (·.commitment)) ins) (houts : Opens (outputs.map (·.commitment)) outs) :
    Conserved ins outs fee (residue z) := by
  obtain ⟨outPoints, houtPoints, hcolumns⟩ := fullMatrix_eq_ok_iff.mp hmatrix
  obtain ⟨coins', hcoins', hmade⟩ := exists_getElem?_of_forall₂ hcolumns hcolumn
  obtain rfl := Option.some.inj (hcoins.symm.trans hcoins')
  obtain ⟨-, inPoints, hinPoints, rfl⟩ := fullColumn_eq_ok_iff.mp hmade
  rw [List.getLast?_concat, Option.some.injEq] at hkey
  rw [← hkey, hkeys, Option.some.injEq, sub_eq, total_of_opens hins hinPoints, zero_eq, zero_add,
    total_of_opens houts houtPoints, smulBase_eq_multiple] at hz
  rw [length_of_opens hins, length_of_opens houts] at hbound
  exact conserved_of_sub_eq hamount hbound hz

/-- Amounts balance if a simple signature is accepted, and likewise if the last layer of a full one
has a known logarithm for some ring member; or else the second generator has a known one. -/
theorem value_conserved {ins outs : List (Content C)} :
    (∀ s : Confidential.Signature, Confidential.checkSimpleBalance C s = .ok () →
      (s.pseudoOutputs.length + s.outputs.length + 1) * 2 ^ 64 ≤ order C →
      Opens s.pseudoOutputs ins → Opens (s.outputs.map (·.commitment)) outs →
      Conserved ins outs s.fee 0) ∧
    ∀ (rings : List (List Coin)) (outputs : List Coin) (fee : UInt64) (m : List (List Key)),
      Mlsag.fullMatrix C rings outputs fee = .ok m →
      ∀ (i : ℕ) (coins : List Coin) (column : List Key) (key : Key) (z : C.Scalar),
      rings[i]? = some coins → m[i]? = some column → column.getLast? = some key →
      C.point? key = some (C.smulBase z) →
      (coins.length + outputs.length + 1) * 2 ^ 64 ≤ order C →
      Opens (coins.map (·.commitment)) ins → Opens (outputs.map (·.commitment)) outs →
      Conserved ins outs fee (residue z) := by
  constructor
  · intro s hcheck hbound hins houts
    exact Confidential.conserved_of_checkSimpleBalance hamount hkeys hcheck hbound hins houts
  · intro rings outputs fee m hmatrix i coins column key z hcoins hcolumn hkey hz hbound hins houts
    exact Mlsag.conserved_of_fullMatrix hamount hkeys hmatrix hcoins hcolumn hkey hz hbound hins houts

end

open Residue (wideGroup wideOrder wideOrder_pos)

def spendUnder (p : Confidential.Paid wideGroup) : Confidential.Spend wideGroup :=
  ⟨[], 0, ⟨p.mask, p.mask, 10⟩, p.mask⟩

def signatureFor (p : Confidential.Paid wideGroup) : Confidential.Signature :=
  Confidential.unsigned wideGroup .simple .zero [] [(spendUnder p).pseudoOutput wideGroup] 7 [p]

theorem checkSimpleBalance_signatureFor {p : Confidential.Paid wideGroup} (h : p.Hides 3) :
    Confidential.checkSimpleBalance wideGroup (signatureFor p) = .ok () := by
  have hpseudos : (signatureFor p).pseudoOutputs =
      [spendUnder p].map (Confidential.Spend.pseudoOutput wideGroup) := rfl
  have houtputs : (signatureFor p).outputs = [p].map (·.coin) := rfl
  have hpaid : Confidential.AllHide [⟨.zero, 3, .zero⟩] [p] := .cons h .nil
  have hbalance : Confidential.Balanced ([spendUnder p].map (·.spent)) [⟨.zero, 3, .zero⟩] 7 :=
    ⟨rfl, by simp [spendUnder]⟩
  exact Confidential.checkSimpleBalance_of_hides rfl hpseudos houtputs rfl rfl hpaid hbalance rfl

/-- Seven times the second generator, opened to five under a mask that makes up for the rest. -/
def fiveForSeven : Content wideGroup := ⟨5, Residue.ofNat wideOrder_pos (2 * 0x123456789abcdef0)⟩

def oneUnderThree : Content wideGroup := ⟨1, Residue.ofNat wideOrder_pos 3⟩

def leftOver : Fin wideOrder := Residue.ofNat wideOrder_pos (wideOrder - 3 - 0x123456789abcdef0)

/-- A simple signature that balances, and a matrix that gives away the second generator. -/
theorem value_conserved_wideGroup : ∃ p e',
    Confidential.pay wideGroup ⟨.zero, 3, .zero⟩ ⟨fun k => UInt8.ofNat k, 0⟩ = .ok (p, e') ∧
    Confidential.checkSimpleBalance wideGroup (signatureFor p) = .ok () ∧
    Conserved (C := wideGroup) [⟨10, p.mask⟩] [⟨3, p.mask⟩] 7 0 ∧
    Mlsag.fullMatrix wideGroup [[⟨.zero, wideGroup.pointKey (ofFee wideGroup 7)⟩]]
      [⟨.zero, wideGroup.pointKey oneUnderThree.commitment⟩] 7 =
        .ok [[.zero, wideGroup.pointKey leftOver]] ∧
    Conserved [fiveForSeven] [oneUnderThree] 7 (residue leftOver) := by
  have hpay : (Confidential.pay wideGroup ⟨.zero, 3, .zero⟩ ⟨fun k => UInt8.ofNat k, 0⟩).isOk =
      true := by
    decide +kernel
  obtain ⟨⟨p, e'⟩, hp⟩ := Except.exists_eq_ok hpay
  have hhides := Confidential.hides_of_pay ⟨_, _, hp⟩
  have hcheck := checkSimpleBalance_signatureFor hhides
  have hmatrix : Mlsag.fullMatrix wideGroup [[⟨.zero, wideGroup.pointKey (ofFee wideGroup 7)⟩]]
      [⟨.zero, wideGroup.pointKey oneUnderThree.commitment⟩] 7 =
        .ok [[.zero, wideGroup.pointKey leftOver]] := by
    decide +kernel
  have hamount : order wideGroup • wideGroup.amountBase = 0 := Lawful.order_nsmul_amountBase
  have hkeys := Lawful.point?_pointKey (C := wideGroup)
  have hten : Opens (signatureFor p).pseudoOutputs [(⟨10, p.mask⟩ : Content wideGroup)] :=
    .cons (hkeys _) .nil
  have hthree : Opens ((signatureFor p).outputs.map (·.commitment))
      [(⟨3, p.mask⟩ : Content wideGroup)] := by
    have hcoin : wideGroup.point? p.coin.commitment = some (commit wideGroup 3 p.mask) := by
      rw [hhides.commitment, hkeys, ← commit_eq_opening]
    exact .cons hcoin .nil
  have hseven : Opens [wideGroup.pointKey (ofFee wideGroup 7)] [fiveForSeven] :=
    .cons (by decide +kernel) .nil
  have hone : Opens [wideGroup.pointKey oneUnderThree.commitment] [oneUnderThree] :=
    .cons (hkeys _) .nil
  have hroom : (1 + 1 + 1) * 2 ^ 64 ≤ order wideGroup := by decide
  refine ⟨p, e', hp, hcheck, ?_, hmatrix, ?_⟩
  · exact (value_conserved hamount hkeys).1 (signatureFor p) hcheck hroom hten hthree
  · exact (value_conserved hamount hkeys).2 _ _ _ _ hmatrix 0 _ _ _ leftOver rfl rfl rfl
      (hkeys _) hroom hseven hone

end ConfidentialTx
