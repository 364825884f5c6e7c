import ConfidentialTx.Proofs.Group.Extraction
import ConfidentialTx.Proofs.RingSignature.Acceptance
import ConfidentialTx.Proofs.RingSignature.Completeness

/-! Special soundness. If one ring and one key image have two accepted signatures from which the same
points are recomputed, their responses give away the logarithm of a member's key, and the key image
is the one that belongs to it. -/
namespace ConfidentialTx

open KeyGroup

variable {C : KeyGroup}

namespace RingSignature

variable (C) in
def Member.recomputed (image : C.Point) (m : Member C) : C.Point × C.Point :=
  (leftPoint C m.point m.challenge m.response, rightPoint C m.key image m.challenge m.response)

variable (C) in
/-- `L` and `R` of every member of a ring, if all that they are computed from decodes. -/
def recomputed (image : Key) (ring : List Key) (s : RingSignature) :
    Option (List (C.Point × C.Point)) :=
  match C.point? image, members C 0 ring s.elements with
  | some I, .ok ms => some (ms.map (Member.recomputed C I))
  | _, _ => none

theorem eq_map_element (hscalar : ∀ k a, C.scalar? k = some a ↔ k = C.scalarKey a)
    {es : List RingElement} {ms : List (Member C)}
    (h : List.Forall₂ (fun e m => e.Encodes C m.challenge m.response) es ms) :
    es = ms.map Member.element := by
  induction h with
  | nil => rfl
  | @cons e m es ms he _ ih =>
    obtain ⟨challenge, response⟩ := e
    obtain rfl : challenge = C.scalarKey m.challenge := (hscalar _ _).mp he.1
    obtain rfl : response = C.scalarKey m.response := (hscalar _ _).mp he.2
    rw [ih]
    rfl

section

variable [ScalarAction C] [PrimeOrder C]

theorem Member.eq_of_recomputed_eq {I : C.Point} {m m' : Member C} (hm : m.Decodes)
    (hm' : m'.Decodes) (hkey : m.key = m'.key) (hchallenge : m.challenge = m'.challenge)
    (h : m.recomputed C I = m'.recomputed C I) : m = m' := by
  obtain ⟨key, P, c, r⟩ := m
  obtain ⟨key', P', c', r'⟩ := m'
  obtain rfl : key = key' := hkey
  obtain rfl : c = c' := hchallenge
  obtain rfl : P = P' := Option.some.inj (hm.symm.trans hm')
  obtain rfl : r = r' := PrimeOrder.response_eq (Prod.mk.inj h).1
  rfl

/-- Members with one key and different challenges that lead to one pair of points give away the
logarithm of the key. -/
theorem Member.eq_extracted {I : C.Point} {m m' : Member C} (hm : m.Decodes)
    (hm' : m'.Decodes) (hkey : m.key = m'.key) (hchallenge : m.challenge ≠ m'.challenge)
    (h : m.recomputed C I = m'.recomputed C I) :
    m.point = C.smulBase (extracted m.challenge m.response m'.challenge m'.response) ∧
      I = C.smul (extracted m.challenge m.response m'.challenge m'.response)
        (C.hashToPoint m.key) := by
  obtain ⟨key, P, c, r⟩ := m
  obtain ⟨key', P', c', r'⟩ := m'
  obtain rfl : key = key' := hkey
  obtain rfl : P = P' := Option.some.inj (hm.symm.trans hm')
  obtain ⟨hleft, hright⟩ := Prod.mk.inj h
  exact ⟨eq_smulBase_extracted (PrimeOrder.order_nsmul P) hchallenge hleft,
    eq_smul_extracted_of_smulAdd (PrimeOrder.order_nsmul I) (PrimeOrder.order_nsmul _) hchallenge
      hright⟩

theorem exists_challenge_ne {I : C.Point} {ms ms' : List (Member C)}
    (hms : ∀ m ∈ ms, m.Decodes) (hms' : ∀ m ∈ ms', m.Decodes)
    (hkeys : ms.map (·.key) = ms'.map (·.key))
    (h : ms.map (Member.recomputed C I) = ms'.map (Member.recomputed C I)) (hne : ms ≠ ms') :
    ∃ (i : ℕ) (m m' : Member C), ms[i]? = some m ∧ ms'[i]? = some m' ∧ m.key = m'.key ∧
      m.recomputed C I = m'.recomputed C I ∧ m.challenge ≠ m'.challenge := by
  induction ms generalizing ms' with
  | nil => exact absurd (List.map_eq_nil_iff.mp hkeys.symm).symm hne
  | cons m ms ih =>
    cases ms' with
    | nil => cases hkeys
    | cons m' ms' =>
      obtain ⟨hm, hrest⟩ := List.forall_mem_cons.mp hms
      obtain ⟨hm', hrest'⟩ := List.forall_mem_cons.mp hms'
      rw [List.map_cons, List.map_cons, List.cons.injEq] at hkeys h
      obtain ⟨hkey, hkeys⟩ := hkeys
      obtain ⟨hpoints, h⟩ := h
      by_cases hchallenge : m.challenge = m'.challenge
      · obtain rfl := Member.eq_of_recomputed_eq hm hm' hkey hchallenge hpoints
        obtain ⟨i, hi⟩ := ih hrest hrest' hkeys h fun he => hne (congrArg _ he)
        exact ⟨i + 1, hi⟩
      · exact ⟨0, m, m', rfl, rfl, hkey, hpoints, hchallenge⟩

/-- Two different signatures that are accepted for one ring and one key image, and from which the
same points are recomputed, differ in the challenge of some member. Its responses give the logarithm
of its key, and the key image is the multiple of the hashed key by this logarithm. -/
theorem exists_extracted_of_verify
    (hscalar : ∀ k a, C.scalar? k = some a ↔ k = C.scalarKey a) {message message' : Digest}
    {image : Key} {ring : List Key} {s s' : RingSignature}
    (h : verify C message image ring s = true) (h' : verify C message' image ring s' = true)
    (hne : s ≠ s') (hsame : recomputed C image ring s = recomputed C image ring s') :
    ∃ (i : ℕ) (key : Key) (e e' : RingElement) (c r c' r' x : C.Scalar),
      ring[i]? = some key ∧ s.elements[i]? = some e ∧ s'.elements[i]? = some e' ∧
        e.Encodes C c r ∧ e'.Encodes C c' r' ∧ c ≠ c' ∧
          ScalarAction.residue x = (ScalarAction.residue r' - ScalarAction.residue r) /
            (ScalarAction.residue c - ScalarAction.residue c') ∧
            C.point? key = some (C.smulBase x) ∧
              C.point? image = some (C.smul x (C.hashToPoint key)) := by
  obtain ⟨hlength, I, ms, hI, hmembers⟩ := of_verify h
  obtain ⟨hlength', I', ms', hI', hmembers'⟩ := of_verify h'
  obtain rfl : I = I' := Option.some.inj (hI.symm.trans hI')
  obtain ⟨hkeys, hdecodes, hencodes⟩ := of_members hmembers hlength
  obtain ⟨hkeys', hdecodes', hencodes'⟩ := of_members hmembers' hlength'
  simp only [recomputed, hI, hmembers, hmembers', Option.some.injEq] at hsame
  have hmembersNe : ms ≠ ms' := by
    rintro rfl
    obtain ⟨es⟩ := s
    obtain ⟨es'⟩ := s'
    exact hne (congrArg _ ((eq_map_element hscalar hencodes).trans
      (eq_map_element hscalar hencodes').symm))
  obtain ⟨i, m, m', hm, hm', hkey, hpoints, hchallenge⟩ :=
    exists_challenge_ne hdecodes hdecodes' (hkeys.trans hkeys'.symm) hsame hmembersNe
  obtain ⟨e, he, hencode⟩ := exists_getElem?_of_forall₂ hencodes hm
  obtain ⟨e', he', hencode'⟩ := exists_getElem?_of_forall₂ hencodes' hm'
  have hm₀ := hdecodes m (List.mem_of_getElem? hm)
  obtain ⟨hpoint, himage⟩ :=
    Member.eq_extracted hm₀ (hdecodes' m' (List.mem_of_getElem? hm')) hkey hchallenge hpoints
  refine ⟨i, m.key, e, e', _, _, _, _, extracted m.challenge m.response m'.challenge m'.response,
    ?_, he, he', hencode, hencode', hchallenge, ?_, ?_, ?_⟩
  · rw [← hkeys, List.getElem?_map, hm]
    rfl
  · rw [extracted, Equiv.apply_symm_apply]
  · rw [hm₀, hpoint]
  · rw [hI, ← himage]

end

open Residue (wideGroup)

/-- The signature of a message of `n`s by a signer that takes the same random bytes for every
message. -/
def repeated (n : UInt8) : Signed :=
  match sign wideGroup 1 (.replicate 32 n) twins signerSecret
    ⟨fun k => UInt8.ofNat (k + 100), 0⟩ with
  | .ok (s, _) => s
  | .error _ => default

/-- Who signs two messages with the same random bytes gives the secret away. -/
theorem exists_extracted_of_verify_repeated :
    ∃ (i : ℕ) (key : Key) (e e' : RingElement) (c r c' r' x : wideGroup.Scalar),
      (repeated 7).publicKeys[i]? = some key ∧ (repeated 7).signature.elements[i]? = some e ∧
        (repeated 8).signature.elements[i]? = some e' ∧ e.Encodes wideGroup c r ∧
          e'.Encodes wideGroup c' r' ∧ c ≠ c' ∧
            ScalarAction.residue x = (ScalarAction.residue r' - ScalarAction.residue r) /
              (ScalarAction.residue c - ScalarAction.residue c') ∧
              wideGroup.point? key = some (wideGroup.smulBase x) ∧
                wideGroup.point? (repeated 7).keyImage =
                  some (wideGroup.smul x (wideGroup.hashToPoint key)) := by
  obtain ⟨hring, himage, hne, hverify, hverify', hsame⟩ :
      (repeated 8).publicKeys = (repeated 7).publicKeys ∧
        (repeated 8).keyImage = (repeated 7).keyImage ∧
        (repeated 7).signature ≠ (repeated 8).signature ∧
        verify wideGroup (.replicate 32 7) (repeated 7).keyImage (repeated 7).publicKeys
          (repeated 7).signature = true ∧
        verify wideGroup (.replicate 32 8) (repeated 8).keyImage (repeated 8).publicKeys
          (repeated 8).signature = true ∧
        recomputed wideGroup (repeated 7).keyImage (repeated 7).publicKeys (repeated 7).signature =
          recomputed wideGroup (repeated 7).keyImage (repeated 7).publicKeys
            (repeated 8).signature := by
    decide +kernel
  rw [hring, himage] at hverify'
  exact exists_extracted_of_verify Lawful.scalar?_eq_some_iff hverify hverify' hne hsame

end RingSignature
end ConfidentialTx
