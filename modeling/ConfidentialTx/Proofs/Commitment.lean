import ConfidentialTx.Amount
import ConfidentialTx.Proofs.Group.Laws

/-! Commitments as openings. A commitment is fixed by a number and a residue, its amount and its
mask, and sums and differences of commitments are openings to sums and differences. -/
namespace ConfidentialTx.Commitment

section

open KeyGroup.ScalarAction

variable {C : KeyGroup} [KeyGroup.ScalarAction C]

/-- An amount acts as a number, as the order takes the second generator to zero. -/
theorem smul_ofAmount (hamount : order C • C.amountBase = 0) (v : UInt64) :
    C.smul (C.scalarOfAmount v) C.amountBase = v.toNat • C.amountBase := by
  rw [smul_eq, residue_ofAmount, val_nsmul hamount, multiple_natCast]

theorem commit_eq_nsmul_add (hamount : order C • C.amountBase = 0) (v : UInt64)
    (mask : C.Scalar) : commit C v mask = v.toNat • C.amountBase + C.smulBase mask := by
  rw [commit, smulAddBase_eq, smul_ofAmount hamount]

theorem sum_of_forall₂ {α β : Type} {amount : α → ℕ} {mask : β → C.Scalar} {point : β → C.Point}
    {as : List α} {bs : List β}
    (h : List.Forall₂ (fun a b => point b = amount a • C.amountBase + C.smulBase (mask b)) as bs) :
    (bs.map point).sum = (as.map amount).sum • C.amountBase +
      C.smulBase ((bs.map mask).foldl C.scalarAdd (C.scalarOfAmount 0)) := by
  rw [smulBase_foldl_add]
  induction h with
  | nil => simp
  | cons hb _ ih =>
    simp only [List.map_cons, List.sum_cons, hb, ih, add_nsmul]
    exact add_add_add_comm ..

variable (C) in
/-- `n * H + x * G`. -/
def opening (n : ℕ) (x : ZMod (order C)) : C.Point := n • C.amountBase + x.val • base

@[simp] theorem opening_zero : opening C 0 0 = 0 := by
  simp [opening]

theorem opening_add (m n : ℕ) (x y : ZMod (order C)) :
    opening C m x + opening C n y = opening C (m + n) (x + y) := by
  simp only [opening, val_nsmul order_nsmul_base, map_add, add_nsmul]
  exact add_add_add_comm ..

theorem opening_sub (n : ℕ) (x y : ZMod (order C)) :
    opening C n x - opening C n y = opening C 0 (x - y) := by
  rw [sub_eq_iff_eq_add, opening_add, zero_add, sub_add_cancel]

theorem sum_opening {α : Type} (l : List α) (f : α → ℕ) (g : α → ZMod (order C)) :
    (l.map fun a => opening C (f a) (g a)).sum = opening C (l.map f).sum (l.map g).sum := by
  induction l with
  | nil => simp
  | cons a l ih => simp only [List.map_cons, List.sum_cons, ih, opening_add]

theorem smulBase_eq_opening (x : C.Scalar) : C.smulBase x = opening C 0 (residue x) := by
  rw [smulBase_eq, opening, zero_nsmul, zero_add]

end

open KeyGroup.ScalarAction KeyGroup.Lawful

variable {C : KeyGroup} [KeyGroup.Lawful C]

theorem commit_eq_opening (v : UInt64) (mask : C.Scalar) :
    commit C v mask = opening C v.toNat (residue mask) := by
  rw [commit_eq_nsmul_add order_nsmul_amountBase, smulBase_eq, opening]

theorem ofFee_eq_opening (fee : UInt64) : ofFee C fee = opening C fee.toNat 0 := by
  rw [ofFee, smul_ofAmount order_nsmul_amountBase, opening, ZMod.val_zero, zero_nsmul, add_zero]

end ConfidentialTx.Commitment

namespace ConfidentialTx.Amount

theorem add?_eq_some_iff {a b c : UInt64} : add? a b = some c ↔ c.toNat = a.toNat + b.toNat := by
  have hc := c.toNat_lt
  simp only [add?]
  split
  · rename_i h
    rw [Option.some.injEq, ← UInt64.toNat_inj, UInt64.toNat_add, Nat.mod_eq_of_lt h, eq_comm]
  · rename_i h
    simp only [UInt64.size] at h
    constructor
    · intro h'
      cases h'
    · intro h'
      omega

theorem sum?_eq_some_iff {start c : UInt64} {as : List UInt64} :
    sum? start as = some c ↔ c.toNat = start.toNat + (as.map UInt64.toNat).sum := by
  induction as generalizing start with
  | nil => simp [sum?, ← UInt64.toNat_inj, eq_comm]
  | cons a as ih =>
    simp only [sum?, Option.bind_eq_some_iff, add?_eq_some_iff, ih, List.map_cons, List.sum_cons]
    constructor
    · rintro ⟨b, hb, hc⟩
      omega
    · intro hc
      have hlt := c.toNat_lt
      have hb : (UInt64.ofNat (start.toNat + a.toNat)).toNat = start.toNat + a.toNat := by
        rw [UInt64.toNat_ofNat', Nat.mod_eq_of_lt (by omega)]
      exact ⟨_, hb, by omega⟩

end ConfidentialTx.Amount
