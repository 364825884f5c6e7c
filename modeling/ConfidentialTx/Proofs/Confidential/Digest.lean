import ConfidentialTx.Confidential.Wire

/-! Digests of signatures. Two signatures with the same digests of their two parts are the same on the
wire, or else two of the byte strings that were digested collide. -/
namespace ConfidentialTx

/-- Some byte string of one list has the same digest as a different one of the other list. -/
def Collide (xs ys : List (List UInt8)) : Prop :=
  ∃ x ∈ xs, ∃ y ∈ ys, x ≠ y ∧ keccak256 x = keccak256 y

theorem Collide.mono {xs ys xs' ys' : List (List UInt8)} (h : Collide xs ys) (hxs : xs ⊆ xs')
    (hys : ys ⊆ ys') : Collide xs' ys' := by
  obtain ⟨x, hx, y, hy, hne, hdigest⟩ := h
  exact ⟨x, hxs hx, y, hys hy, hne, hdigest⟩

theorem eq_or_collide {x y : List UInt8} {xs ys : List (List UInt8)} (hx : x ∈ xs) (hy : y ∈ ys)
    (h : keccak256 x = keccak256 y) : x = y ∨ Collide xs ys := by
  by_cases hxy : x = y
  · exact .inl hxy
  · exact .inr ⟨x, hx, y, hy, hxy, h⟩

namespace Confidential

theorem Kind.eq_of_tag_eq {k k' : Kind} (h : k.tag = k'.tag) : k = k' := by
  have hk := Kind.ofTag_eq_ok_iff.mpr h
  rw [Kind.ofTag_eq_ok_iff.mpr rfl, Except.ok.injEq] at hk
  exact hk

namespace Signature

variable {s s' : Signature}

/-- The byte strings of a signature that are digested: the base, and the rest unless it is empty
because there are no hidden amounts. -/
def digested (s : Signature) : List (List UInt8) :=
  s.baseBytes :: if s.kind = .null then [] else [s.prunableBytes]

theorem kind_eq_of_baseBytes_eq (h : s.baseBytes = s'.baseBytes) : s.kind = s'.kind :=
  Kind.eq_of_tag_eq (List.cons.inj h).1

theorem prunableBytes_eq_or_collide (hkind : s.kind = s'.kind)
    (h : s.prunableHash = s'.prunableHash) :
    s.prunableBytes = s'.prunableBytes ∨ Collide s.digested s'.digested := by
  cases hk : s.kind with
  | null =>
    have hk' : s'.kind = .null := by rw [← hkind, hk]
    simp only [prunableBytes, hk, hk', true_or]
  | full | simple =>
    have hk' := hkind.symm.trans hk
    simp only [prunableHash, hk, hk'] at h
    refine eq_or_collide ?_ ?_ h
    · simp [digested, hk]
    · simp [digested, hk']

/-- The digests of both parts bind the kind and all that is written. The zeros that stand for the
second one where there are no hidden amounts leave no doubt, since the base tells the kind. -/
theorem toBytes_eq_or_collide (hbase : s.baseHash = s'.baseHash)
    (hprunable : s.prunableHash = s'.prunableHash) :
    (s.kind = s'.kind ∧ s.toBytes = s'.toBytes) ∨ Collide s.digested s'.digested := by
  have hmem : ∀ s : Signature, s.baseBytes ∈ s.digested := fun s => List.mem_cons_self ..
  rcases eq_or_collide (hmem s) (hmem s') hbase with hbytes | hcollide
  · have hkind := kind_eq_of_baseBytes_eq hbytes
    rcases prunableBytes_eq_or_collide hkind hprunable with hrest | hcollide
    · exact .inl ⟨hkind, by rw [toBytes, hbytes, hrest, toBytes]⟩
    · exact .inr hcollide
  · exact .inr hcollide

end Signature

end Confidential
end ConfidentialTx
