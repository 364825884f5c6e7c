import ConfidentialTx.Mlsag.Matrix
import ConfidentialTx.Proofs.Outcome

/-! The columns of the matrices that spends are signed over. -/
namespace ConfidentialTx

abbrev HaveCommitments (C : KeyGroup) (coins : List Coin) (points : List C.Point) : Prop :=
  List.Forall₂ (fun coin P => C.point? coin.commitment = some P) coins points

namespace Mlsag

variable {C : KeyGroup}

theorem decodePoint_eq_ok_iff {field : String} {k : Key} {P : C.Point} :
    decodePoint C field k = .ok P ↔ C.point? k = some P := by
  rw [decodePoint]
  cases C.point? k <;> simp

theorem addCommitments_eq_ok_iff {field : String} {start P : C.Point} {coins : List Coin} :
    addCommitments C field start coins = .ok P ↔ ∃ points,
      HaveCommitments C coins points ∧
        Commitment.total C start points = P := by
  simp only [addCommitments, Except.bind_eq_ok_iff, Except.mapM_eq_ok_iff, decodePoint_eq_ok_iff,
    pure, Except.pure, Except.ok.injEq]

theorem simpleMatrix_eq_ok_iff {ring : List Coin} {pseudoOutput : Key} {m : List (List Key)} :
    simpleMatrix C ring pseudoOutput = .ok m ↔ ∃ pseudo, C.point? pseudoOutput = some pseudo ∧
      List.Forall₂ (fun coin column => ∃ P, C.point? coin.commitment = some P ∧
        [coin.destination, C.pointKey (C.sub P pseudo)] = column) ring m := by
  simp only [simpleMatrix, Except.bind_eq_ok_iff, Except.mapM_eq_ok_iff, decodePoint_eq_ok_iff,
    pure, Except.pure, Except.ok.injEq]

theorem fullColumn_eq_ok_iff {inputs : Nat} {total : C.Point} {coins : List Coin}
    {column : List Key} : fullColumn C inputs total coins = .ok column ↔
      coins.length = inputs ∧ ∃ points,
        HaveCommitments C coins points ∧
          coins.map (·.destination) ++
            [C.pointKey (C.sub (Commitment.total C C.zero points) total)] = column := by
  rw [fullColumn]
  by_cases h : coins.length = inputs
  · rw [if_neg (not_not.mpr h)]
    simp only [h, true_and, Except.bind_eq_ok_iff, addCommitments_eq_ok_iff, pure, Except.pure,
      Except.ok.injEq]
    constructor
    · rintro ⟨_, ⟨points, hpoints, rfl⟩, rfl⟩
      exact ⟨points, hpoints, rfl⟩
    · rintro ⟨points, hpoints, rfl⟩
      exact ⟨_, ⟨points, hpoints, rfl⟩, rfl⟩
  · simp [h]

theorem fullMatrix_eq_ok_iff {rings : List (List Coin)} {outputs : List Coin} {fee : UInt64}
    {m : List (List Key)} : fullMatrix C rings outputs fee = .ok m ↔ ∃ outs,
      HaveCommitments C outputs outs ∧
        List.Forall₂ (fun coins column => fullColumn C (rings.headD []).length
          (Commitment.total C (Commitment.ofFee C fee) outs) coins = .ok column) rings m := by
  simp only [fullMatrix, Except.bind_eq_ok_iff, outputTotal, addCommitments_eq_ok_iff,
    Except.mapM_eq_ok_iff]
  constructor
  · rintro ⟨_, ⟨outs, houts, rfl⟩, h⟩
    exact ⟨outs, houts, h⟩
  · rintro ⟨outs, houts, h⟩
    exact ⟨_, ⟨outs, houts, rfl⟩, h⟩

theorem length_eq_of_fullMatrix {rings : List (List Coin)} {outputs : List Coin} {fee : UInt64}
    {m : List (List Key)} (hm : fullMatrix C rings outputs fee = .ok m) :
    ∀ coins ∈ rings, coins.length = (rings.headD []).length := by
  obtain ⟨outs, -, hcolumns⟩ := fullMatrix_eq_ok_iff.mp hm
  exact forall_mem_right hcolumns.flip fun column coins hcolumn =>
    (fullColumn_eq_ok_iff.mp hcolumn).1

theorem exists_cons_of_fullMatrix {rings : List (List Coin)} {outputs : List Coin} {fee : UInt64}
    {m : List (List Key)} (hrings : rings ≠ []) (hm : fullMatrix C rings outputs fee = .ok m) :
    ∃ column rest, m = column :: rest ∧ column.length = (rings.headD []).length + 1 := by
  obtain ⟨outs, -, hcolumns⟩ := fullMatrix_eq_ok_iff.mp hm
  cases hcolumns with
  | nil => exact absurd rfl hrings
  | @cons coins column rings rest hcolumn _ =>
    obtain ⟨-, points, -, rfl⟩ := fullColumn_eq_ok_iff.mp hcolumn
    exact ⟨_, rest, rfl, by simp⟩

/-! A matrix is missing only if some key of it is no point, unless its columns differ in length. -/

def IsPointError (e : Error) : Prop := ∃ field, e = .invalidPoint field

theorem decodePoint_failsWith (field : String) (k : Key) :
    Except.FailsWith IsPointError (decodePoint C field k) := by
  rw [decodePoint]
  cases C.point? k with
  | some P => exact Except.failsWith_ok P
  | none =>
    rintro e ⟨⟩
    exact ⟨field, rfl⟩

theorem addCommitments_failsWith (field : String) (start : C.Point) (coins : List Coin) :
    Except.FailsWith IsPointError (addCommitments C field start coins) :=
  Except.failsWith_bind (Except.failsWith_mapM fun _ _ => decodePoint_failsWith field _)
    fun _ _ => Except.failsWith_ok _

theorem simpleMatrix_failsWith (ring : List Coin) (pseudoOutput : Key) :
    Except.FailsWith IsPointError (simpleMatrix C ring pseudoOutput) := by
  refine Except.failsWith_bind (decodePoint_failsWith _ _) fun pseudo _ => ?_
  refine Except.failsWith_mapM fun coin _ => ?_
  exact Except.failsWith_bind (decodePoint_failsWith _ _) fun P _ => Except.failsWith_ok _

theorem fullMatrix_failsWith {rings : List (List Coin)} (outputs : List Coin) (fee : UInt64)
    (h : ∀ coins ∈ rings, coins.length = (rings.headD []).length) :
    Except.FailsWith IsPointError (fullMatrix C rings outputs fee) := by
  refine Except.failsWith_bind (addCommitments_failsWith _ _ _) fun total _ => ?_
  refine Except.failsWith_mapM fun coins hcoins => ?_
  rw [fullColumn, if_neg (not_not.mpr (h coins hcoins))]
  exact Except.failsWith_bind (addCommitments_failsWith _ _ _) fun sum _ => Except.failsWith_ok _

def IsShapeError (e : Error) : Prop := ∃ field expected found, e = .shapeMismatch field expected found

theorem fullMatrix_failsWith_shape (rings : List (List Coin)) (outputs : List Coin) (fee : UInt64) :
    Except.FailsWith (fun e => IsPointError e ∨ IsShapeError e)
      (fullMatrix C rings outputs fee) := by
  refine Except.failsWith_bind (fun e he => .inl (addCommitments_failsWith _ _ _ e he))
    fun total _ => Except.failsWith_mapM fun coins _ => ?_
  rw [fullColumn]
  split
  · rintro e ⟨⟩
    exact .inr ⟨_, _, _, rfl⟩
  · exact Except.failsWith_bind (fun e he => .inl (addCommitments_failsWith _ _ _ e he))
      fun sum _ => Except.failsWith_ok _

end Mlsag
end ConfidentialTx
