import ConfidentialTx.Proofs.Wire.Varint

/-! Encodings that show where they end. What is written for a value and what follows it can be told
apart, however long the lists in it are, so a value is known by its bytes even without a parser and
its limits. -/
namespace ConfidentialTx.Wire

/-- What is written for a value begins nothing that is written for another one. -/
def PrefixFree {α : Type} (write : α → List UInt8) : Prop :=
  ∀ (a b : α) (x y : List UInt8), write a ++ x = write b ++ y → a = b ∧ x = y

namespace PrefixFree

variable {α β : Type} {write : α → List UInt8}

theorem injective (h : PrefixFree write) : Function.Injective write := by
  intro a b hab
  exact (h a b [] [] (by rw [hab])).1

theorem comp (h : PrefixFree write) {f : β → α} (hf : Function.Injective f) :
    PrefixFree fun b => write (f b) := by
  intro a b x y hxy
  obtain ⟨hab, hrest⟩ := h _ _ x y hxy
  exact ⟨hf hab, hrest⟩

theorem flatMap (h : PrefixFree write) {as bs : List α} {x y : List UInt8}
    (hlength : as.length = bs.length) (hxy : as.flatMap write ++ x = bs.flatMap write ++ y) :
    as = bs ∧ x = y := by
  induction as generalizing bs with
  | nil =>
    obtain rfl := List.length_eq_zero_iff.mp hlength.symm
    exact ⟨rfl, hxy⟩
  | cons a as ih =>
    cases bs with
    | nil => cases hlength
    | cons b bs =>
      rw [List.flatMap_cons, List.flatMap_cons, List.append_assoc, List.append_assoc] at hxy
      obtain ⟨rfl, hrest⟩ := h a b _ _ hxy
      obtain ⟨rfl, hend⟩ := ih (Nat.succ.inj hlength) hrest
      exact ⟨rfl, hend⟩

/-- Where no value is written as nothing, the end of the bytes is the end of the list. -/
theorem flatMap_injective (h : PrefixFree write) (hne : ∀ a, write a ≠ []) :
    Function.Injective (List.flatMap write) := by
  intro as
  induction as with
  | nil =>
    intro bs hbytes
    cases bs with
    | nil => rfl
    | cons b bs => exact absurd (List.append_eq_nil_iff.mp hbytes.symm).1 (hne b)
  | cons a as ih =>
    intro bs hbytes
    cases bs with
    | nil => exact absurd (List.append_eq_nil_iff.mp hbytes).1 (hne a)
    | cons b bs =>
      obtain ⟨rfl, hrest⟩ := h a b _ _ hbytes
      rw [ih hrest]

end PrefixFree

theorem prefixFree_encode : PrefixFree Varint.encode := by
  intro m
  induction m using Nat.strongRecOn with
  | ind m ih =>
    intro n x y h
    obtain ⟨b, bytes, hm, hgroup, hmore, hbytes⟩ := Varint.encode_eq_cons m
    obtain ⟨c, bytes', hn, hgroup', hmore', hbytes'⟩ := Varint.encode_eq_cons n
    rw [hm, hn, List.cons_append, List.cons_append, List.cons.injEq] at h
    obtain ⟨rfl, hrest⟩ := h
    have hiff : 128 ≤ m ↔ 128 ≤ n := hmore.symm.trans hmore'
    rw [hbytes, hbytes'] at hrest
    by_cases hlarge : 128 ≤ m
    · rw [if_pos hlarge, if_pos (hiff.mp hlarge)] at hrest
      obtain ⟨hquotient, hxy⟩ := ih (m / 128) (by omega) (n / 128) x y hrest
      exact ⟨by omega, hxy⟩
    · rw [if_neg hlarge, if_neg (mt hiff.mpr hlarge)] at hrest
      exact ⟨by omega, hrest⟩

theorem PrefixFree.counted {α : Type} {write : α → List UInt8} (h : PrefixFree write) :
    PrefixFree fun as : List α => Varint.encode as.length ++ as.flatMap write := by
  intro as bs x y hxy
  rw [List.append_assoc, List.append_assoc] at hxy
  obtain ⟨hlength, hrest⟩ := prefixFree_encode _ _ _ _ hxy
  exact h.flatMap hlength hrest

theorem prefixFree_toList {n : ℕ} : PrefixFree (Tuple.toList : Tuple UInt8 n → List UInt8) := by
  intro s t x y h
  obtain ⟨hst, hxy⟩ := List.append_inj h (by rw [s.length_toList, t.length_toList])
  exact ⟨Tuple.toList_inj hst, hxy⟩

theorem concat_append_inj {ks ls : List Key} {x y : List UInt8} (hlength : ks.length = ls.length)
    (h : Key.concat ks ++ x = Key.concat ls ++ y) : ks = ls ∧ x = y :=
  prefixFree_toList.flatMap hlength h

end ConfidentialTx.Wire
