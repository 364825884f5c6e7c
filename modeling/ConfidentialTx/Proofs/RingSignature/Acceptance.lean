import ConfidentialTx.RingSignature
import ConfidentialTx.Proofs.Outcome

/-! What the verifier of a ring signature decodes: a point for the key image, and for each member of the
ring the point of its key and the two scalars of its element. -/
namespace ConfidentialTx

variable {C : KeyGroup}

variable (C) in
def RingElement.Encodes (e : RingElement) (c r : C.Scalar) : Prop :=
  C.scalar? e.challenge = some c ∧ C.scalar? e.response = some r

namespace RingSignature

theorem of_verify {message : Digest} {image : Key} {ring : List Key} {s : RingSignature}
    (h : verify C message image ring s = true) : ring.length = s.elements.length ∧
      ∃ I ms, C.point? image = some I ∧ members C 0 ring s.elements = .ok ms := by
  obtain ⟨⟨⟩, h⟩ := Except.exists_eq_ok h
  rw [check] at h
  split at h
  · cases h
  rename_i hsize
  split at h
  · cases h
  rename_i I hI
  obtain ⟨ms, hms, -⟩ := Except.bind_eq_ok_iff.mp h
  exact ⟨not_not.mp (not_or.mp hsize).1, I, ms, hI, hms⟩

theorem of_members {i : ℕ} {ring : List Key} {es : List RingElement} {ms : List (Member C)}
    (h : members C i ring es = .ok ms) (hlength : ring.length = es.length) :
    ms.map (·.key) = ring ∧ (∀ m ∈ ms, C.point? m.key = some m.point) ∧
      List.Forall₂ (fun e m => e.Encodes C m.challenge m.response) es ms := by
  fun_induction members C i ring es generalizing ms with
  | case1 i key keys e es c r hr hc P hP ih =>
    cases hms : members C (i + 1) keys es with
    | error => simp [hms, Except.map] at h
    | ok rest =>
      simp only [hms, Except.map, Except.ok.injEq] at h
      subst h
      obtain ⟨hkeys, hdecodes, helements⟩ := ih hms (Nat.succ.inj hlength)
      exact ⟨congrArg _ hkeys, List.forall_mem_cons.mpr ⟨hP, hdecodes⟩, .cons ⟨hc, hr⟩ helements⟩
  | case2 | case3 => cases h
  | case4 keys i es hne =>
    cases h
    cases keys with
    | nil =>
      obtain rfl := List.length_eq_zero_iff.mp hlength.symm
      exact ⟨rfl, by simp, .nil⟩
    | cons key keys =>
      cases es with
      | nil => cases hlength
      | cons e es => exact (hne _ _ _ _ rfl rfl).elim

theorem exists_element_of_members {i : ℕ} {ring : List Key} {es : List RingElement}
    {ms : List (Member C)} (h : members C i ring es = .ok ms) :
    ∀ m ∈ ms, ∃ e ∈ es, C.scalar? e.challenge = some m.challenge := by
  fun_induction members C i ring es generalizing ms with
  | case1 i key keys e es c r hr hc P hP ih =>
    cases hms : members C (i + 1) keys es with
    | error => simp [hms, Except.map] at h
    | ok rest =>
      simp only [hms, Except.map, Except.ok.injEq] at h
      subst h
      refine List.forall_mem_cons.mpr ⟨⟨e, List.mem_cons_self .., hc⟩, fun m hm => ?_⟩
      obtain ⟨e', he', hc'⟩ := ih hms m hm
      exact ⟨e', List.mem_cons_of_mem _ he', hc'⟩
  | case2 | case3 => cases h
  | case4 =>
    cases h
    simp

end RingSignature
end ConfidentialTx
