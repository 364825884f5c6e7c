import ConfidentialTx.Proofs.Edwards.Coding

/-! The keys that stand for one point. Reading takes `y` modulo `p` and changes the sign of `x` where
the top bit says so, so a point has a second key for each of `y < 19` and `x = 0`. -/
namespace ConfidentialTx.Edwards.Point

open Coordinate

/-- What the 255 low bits of a key may be: `y`, and `y + p` where this fits. -/
def ordinates (P : Point) : List ℕ := if P.y < 19 then [P.y, P.y + p] else [P.y]

/-- What the top bit of a key may add: the sign of `x`, and either where `x` is zero. -/
def signs (P : Point) : List ℕ :=
  if P.x = 0 then [0, signBit] else [if isOdd P.x then signBit else 0]

def encodings (P : Point) : List ℕ := P.ordinates.flatMap fun y => P.signs.map (y + ·)

theorem mem_encodings_iff {P : Point} {n : ℕ} :
    n ∈ P.encodings ↔ ∃ y ∈ P.ordinates, ∃ s ∈ P.signs, y + s = n := by
  simp [encodings]

theorem p_add_eq_signBit : p + 19 = signBit := by decide

theorem mem_ordinates_iff {P : Point} (hP : P.y < p) {m : ℕ} :
    m ∈ P.ordinates ↔ m < signBit ∧ m % p = P.y := by
  have hp := p_add_eq_signBit
  have hlarge : 19 < p := by decide
  have hdivision : m < signBit → m % p = m ∨ m % p + p = m := by
    intro hm
    rcases Nat.lt_or_ge m p with hlt | hge
    · exact .inl (Nat.mod_eq_of_lt hlt)
    · right
      rw [Nat.mod_eq_sub_mod hge, Nat.mod_eq_of_lt (by omega)]
      omega
  rw [ordinates]
  split
  · rw [List.mem_pair]
    constructor
    · rintro (rfl | rfl)
      · exact ⟨by omega, Nat.mod_eq_of_lt hP⟩
      · exact ⟨by omega, by rw [Nat.add_mod_right, Nat.mod_eq_of_lt hP]⟩
    · rintro ⟨hm, hy⟩
      have h := hdivision hm
      omega
  · rw [List.mem_singleton]
    constructor
    · rintro rfl
      exact ⟨by omega, Nat.mod_eq_of_lt hP⟩
    · rintro ⟨hm, hy⟩
      have h := hdivision hm
      omega

theorem mem_signs_iff {P : Point} {x : ℕ} (hx : evenX? P.y = some x)
    (hP : P.x = x ∨ P.x = Coordinate.neg x) {s : ℕ} :
    s ∈ P.signs ↔ (s = 0 ∧ P.x = x) ∨ (s = signBit ∧ P.x = Coordinate.neg x) := by
  obtain ⟨hlt, heven⟩ := of_evenX? hx
  rcases Nat.eq_zero_or_pos x with rfl | hpos
  · have hzero : P.x = 0 := by
      rw [neg_zero, or_self] at hP
      exact hP
    simp [signs, hzero, neg_zero]
  · have hodd : isOdd (Coordinate.neg x) = true := by rw [isOdd_neg hlt hpos, heven, Bool.not_false]
    have hne : x ≠ Coordinate.neg x := by
      intro h
      rw [← h, heven] at hodd
      cases hodd
    have hneg : Coordinate.neg x ≠ 0 := by
      intro h
      rw [h] at hodd
      cases hodd
    rcases hP with hP | hP
    · simp [signs, hP, hpos.ne', heven, hne]
    · simp [signs, hP, hneg, hodd, hne.symm]

theorem ofKey?_eq_some_iff {P : Point} (h : P.Coded) {k : Key} :
    ofKey? k = some P ↔ Bytes.toNatLE k.toList ∈ P.encodings := by
  obtain ⟨hreduced, x, hx, hP⟩ := h
  have hbound : Bytes.bound 32 = 2 * signBit := by decide
  have hn := Bytes.toNatLE_lt k.toList
  rw [Tuple.length_toList, hbound] at hn
  have hlow := Nat.mod_lt (Bytes.toNatLE k.toList) (by decide : 0 < signBit)
  rw [mem_encodings_iff]
  simp only [mem_ordinates_iff hreduced.y_lt, mem_signs_iff hx hP]
  generalize hnumber : Bytes.toNatLE k.toList = n at *
  have hdecode : ofKey? k = some P ↔ n % signBit % p = P.y ∧
      (if n < signBit then x else Coordinate.neg x) = P.x := by
    rw [ofKey?, hnumber, Option.map_eq_some_iff]
    constructor
    · rintro ⟨x', hx', rfl⟩
      rw [hx', Option.some.injEq] at hx
      exact ⟨rfl, by rw [hx]⟩
    · rintro ⟨hy, hsign⟩
      exact ⟨x, by rw [hy, hx], by rw [hy, hsign]⟩
  rw [hdecode]
  constructor
  · rintro ⟨hy, hsign⟩
    refine ⟨n % signBit, ⟨hlow, hy⟩, ?_⟩
    split at hsign
    · rename_i hbelow
      exact ⟨0, .inl ⟨rfl, hsign.symm⟩, Nat.mod_eq_of_lt hbelow⟩
    · rename_i habove
      have hmod : n % signBit = n - signBit := by
        rw [Nat.mod_eq_sub_mod (by omega), Nat.mod_eq_of_lt (by omega)]
      exact ⟨signBit, .inr ⟨rfl, hsign.symm⟩, by omega⟩
  · rintro ⟨y, ⟨hlt, hy⟩, s, ⟨rfl, hs⟩ | ⟨rfl, hs⟩, rfl⟩
    · rw [Nat.add_zero, Nat.mod_eq_of_lt hlt, if_pos hlt]
      exact ⟨hy, hs.symm⟩
    · rw [Nat.add_mod_right, Nat.mod_eq_of_lt hlt, if_neg (by omega)]
      exact ⟨hy, hs.symm⟩

/-- A point has a single key unless its `y` is below `19` or its `x` is zero. -/
theorem forall_mem_encodings_eq_iff (P : Point) :
    (∀ m ∈ P.encodings, ∀ n ∈ P.encodings, m = n) ↔ 19 ≤ P.y ∧ P.x ≠ 0 := by
  have hpos : 0 < p := p_pos
  have hsign : 0 < signBit := by decide
  by_cases hy : P.y < 19
  · refine iff_of_false (fun h => ?_) (fun h => by omega)
    have hne : P.signs ≠ [] := by
      rw [signs]
      split <;> simp
    obtain ⟨s, hs⟩ := List.exists_mem_of_ne_nil _ hne
    have h₁ := mem_encodings_iff.mpr ⟨P.y, by simp [ordinates, hy], s, hs, rfl⟩
    have h₂ := mem_encodings_iff.mpr ⟨P.y + p, by simp [ordinates, hy], s, hs, rfl⟩
    have heq := h _ h₁ _ h₂
    omega
  · by_cases hx : P.x = 0
    · refine iff_of_false (fun h => ?_) (fun h => h.2 hx)
      have hmem : P.y ∈ P.ordinates := by simp [ordinates, hy]
      have h₁ := mem_encodings_iff.mpr ⟨P.y, hmem, 0, by simp [signs, hx], rfl⟩
      have h₂ := mem_encodings_iff.mpr ⟨P.y, hmem, signBit, by simp [signs, hx], rfl⟩
      have heq := h _ h₁ _ h₂
      omega
    · refine iff_of_true ?_ ⟨by omega, hx⟩
      simp [encodings, ordinates, signs, hy, hx]

theorem exists_key_of_mem_encodings {P : Point} (h : P.Coded) {n : ℕ} (hn : n ∈ P.encodings) :
    ∃ k : Key, Bytes.toNatLE k.toList = n := by
  have hbound : Bytes.bound 32 = 2 * signBit := by decide
  obtain ⟨x, hx, hP⟩ := h.x_eq
  obtain ⟨y, hy, s, hs, rfl⟩ := mem_encodings_iff.mp hn
  have hlt := ((mem_ordinates_iff h.reduced.y_lt).mp hy).1
  have hsmall : y + s < Bytes.bound 32 := by
    rcases (mem_signs_iff hx hP).mp hs with ⟨rfl, -⟩ | ⟨rfl, -⟩ <;> omega
  exact ⟨⟨Bytes.ofNatLE 32 (y + s), Bytes.length_ofNatLE 32 _⟩,
    by rw [Bytes.toNatLE_ofNatLE, Nat.mod_eq_of_lt hsmall]⟩

theorem toNatLE_injective {k k' : Key}
    (h : Bytes.toNatLE k.toList = Bytes.toNatLE k'.toList) : k = k' := by
  apply Tuple.ext
  rw [← Bytes.ofNatLE_toNatLE k.toList, ← Bytes.ofNatLE_toNatLE k'.toList, h, Tuple.length_toList,
    Tuple.length_toList]

theorem forall_ofKey?_eq_iff {P : Point} {k : Key} (h : ofKey? k = some P) :
    (∀ k', ofKey? k' = some P → k' = k) ↔ 19 ≤ P.y ∧ P.x ≠ 0 := by
  have hcoded := coded_of_ofKey? h
  have hmem := (ofKey?_eq_some_iff hcoded).mp h
  rw [← forall_mem_encodings_eq_iff]
  constructor
  · intro hunique m hm n hn
    obtain ⟨k₁, rfl⟩ := exists_key_of_mem_encodings hcoded hm
    obtain ⟨k₂, rfl⟩ := exists_key_of_mem_encodings hcoded hn
    rw [hunique k₁ ((ofKey?_eq_some_iff hcoded).mpr hm),
      hunique k₂ ((ofKey?_eq_some_iff hcoded).mpr hn)]
  · intro hunique k' hk'
    exact toNatLE_injective (hunique _ ((ofKey?_eq_some_iff hcoded).mp hk') _ hmem)

end ConfidentialTx.Edwards.Point
