import ConfidentialTx.Proofs.Edwards.Coding
import ConfidentialTx.Proofs.RingSignature.Acceptance

/-! Key images that differ by the point of order two. A key image enters a signature only as `c * I`
for the challenges `c`, and even challenges lose the difference, so that one signature is accepted
for both. -/
namespace ConfidentialTx.RingSignature

section

variable {C : KeyGroup}

/-- Two key images are told apart only by what the ring members add to the digest. -/
theorem verify_congr {message : Digest} {image image' : Key} {I I' : C.Point} {ring : List Key}
    {s : RingSignature} (hI : C.point? image = some I) (hI' : C.point? image' = some I')
    (h : ∀ ms, members C 0 ring s.elements = .ok ms →
      ∀ m ∈ ms, Member.transcript C I' m = Member.transcript C I m) :
    verify C message image' ring s = verify C message image ring s := by
  have hcheck : check C message image' ring s = check C message image ring s := by
    rw [check, check, hI, hI']
    cases hms : members C 0 ring s.elements with
    | error => rfl
    | ok ms =>
      have htranscripts : ms.map (Member.transcript C I') = ms.map (Member.transcript C I) :=
        List.map_congr_left (h ms hms)
      simp only [bind, Except.bind, htranscripts]
  rw [verify, verify, hcheck]

end

end ConfidentialTx.RingSignature

namespace ConfidentialTx.Edwards

open Coordinate RingSignature

theorem point?_eq (key : Key) : group.point? key = Point.ofKey? key := rfl

theorem reduced_hashToPoint (key : Key) : Point.Reduced (group.hashToPoint key) :=
  Point.reduced_toPoint _

/-- The sign of the key image is lost in a term with an even challenge. -/
theorem transcript_flip {I : Point} (hI : I.Reduced) (b : Bool) (m : Member group)
    (hm : isOdd (Fin.val m.challenge) = false) :
    Member.transcript group (I.flip b) m = Member.transcript group I m := by
  have h := Point.smulAdd_flip (reduced_hashToPoint m.key) hI b (Fin.val m.response)
    (Fin.val m.challenge)
  rw [hm, Bool.and_false, Point.flip_false] at h
  exact congrArg (RingSignature.transcript group (leftPoint group m.point m.challenge m.response)) h

theorem val_of_scalar? {key : Key} {c : Fin order} (h : group.scalar? key = some c) :
    c.val = Bytes.toNatLE key.toList := by
  have h : Residue.ofKey? order key = some c := h
  simp only [Residue.ofKey?] at h
  split at h
  · cases h
    rfl
  · cases h

/-- A signature with even challenges is accepted for a key image exactly if it is accepted for its
sum with the point of order two. -/
theorem verify_add_orderTwo {message : Digest} {image : Key} {I : Point} {ring : List Key}
    {s : RingSignature} (himage : Point.ofKey? image = some I)
    (heven : ∀ e ∈ s.elements, 2 ∣ Bytes.toNatLE e.challenge.toList) :
    RingSignature.verify group message (I.add .orderTwo).toKey ring s =
        RingSignature.verify group message image ring s ∧
      Point.ofKey? (I.add .orderTwo).toKey = some (I.add .orderTwo) ∧
      (I.add .orderTwo).toKey ≠ image ∧
      (I.add .orderTwo).smul order = (I.smul order).add .orderTwo ∧
      (I.smul order = .zero → (I.add .orderTwo).smul order ≠ .zero) := by
  have hcoded := Point.coded_of_ofKey? himage
  have hadd := Point.add_orderTwo hcoded.reduced
  have hflip := hcoded.flip.ofKey?_toKey
  -- The order is odd, so what is left of the image outside of the subgroup tells the two apart.
  have hodd : isOdd order = true := by decide
  have hmul : (I.flip true).smul order = (I.smul order).flip true := by
    rw [Point.smul_flip hcoded.reduced, hodd, Bool.and_self]
  have hmulReduced : (I.smul order).Reduced := Point.reduced_toPoint _
  rw [hadd, Point.add_orderTwo hmulReduced]
  have himage' : group.point? (I.flip true).toKey = some (I.flip true) := by
    rw [point?_eq]
    exact hflip
  refine ⟨verify_congr himage himage' fun ms hms m hm => ?_, hflip, ?_, hmul, ?_⟩
  · obtain ⟨e, he, hc⟩ := exists_element_of_members hms m hm
    have heven' : isOdd (Fin.val m.challenge) = false := by
      rw [val_of_scalar? hc]
      exact isOdd_of_dvd (heven e he)
    exact transcript_flip hcoded.reduced true m heven'
  · rintro rfl
    exact hcoded.flip_ne (Option.some.inj (hflip.symm.trans himage))
  · intro hzero
    rw [hmul, hzero]
    decide

/-- The key image of the secret `1`, which is the hash of the base point. -/
def unitImage : Point :=
  ⟨0x7c11e601859e8c0738da3e0464d351ae55b9aafd8fd0bb7040778d7cfada83ed,
    0x0a49a651e0e0da45764df64578552f2a00547595f445c3b505087c1f5b9b32d6⟩

/-- Signed with the secret `1` alone, the nonce `3` and a message of zeros. -/
def unitSignature : RingSignature :=
  ⟨[⟨Residue.toKey (n := order)
      ⟨0x099274a2a9084debdcbb62ebe773b5bdd0a2089151b737ec5951910db7b1c9e8, by decide⟩,
    Residue.toKey (n := order)
      ⟨0x066d8b5d56f7b21423449d14188c4a42443cf14d514064e9fec0d20ca5440a08, by decide⟩⟩]⟩

/-- Two images of the secret `1` are accepted, and only the true one is in the subgroup. -/
theorem verify_add_orderTwo_unitImage :
    group.keyImage (⟨1, by decide⟩ : Fin order) = unitImage.toKey ∧
      RingSignature.verify group (Tuple.replicate 32 0) unitImage.toKey [Point.base.toKey]
        unitSignature = true ∧
      RingSignature.verify group (Tuple.replicate 32 0) (unitImage.add .orderTwo).toKey
        [Point.base.toKey] unitSignature = true ∧
      unitImage.smul order = .zero ∧ (unitImage.add .orderTwo).smul order ≠ .zero := by
  have himage : group.keyImage (⟨1, by decide⟩ : Fin order) = unitImage.toKey := by
    decide +kernel
  have hcoded : Point.ofKey? unitImage.toKey = some unitImage := by decide +kernel
  have heven : ∀ e ∈ unitSignature.elements, 2 ∣ Bytes.toNatLE e.challenge.toList := by
    decide +kernel
  have hverify : RingSignature.verify group (Tuple.replicate 32 0) unitImage.toKey
      [Point.base.toKey] unitSignature = true := by
    decide +kernel
  have hzero : unitImage.smul order = .zero := by decide +kernel
  obtain ⟨hsame, -, -, -, hother⟩ := verify_add_orderTwo hcoded heven
  exact ⟨himage, hverify, hsame.trans hverify, hzero, hother hzero⟩

/-- Some signature is accepted for a key image outside of the subgroup. -/
theorem exists_verified_not_torsionFree : ∃ (message : Digest) (image : Key) (ring : List Key)
    (s : RingSignature) (I : Point), RingSignature.verify group message image ring s = true ∧
      group.point? image = some I ∧ I.smul order ≠ .zero := by
  refine ⟨Tuple.replicate 32 0, (unitImage.flip true).toKey, [Point.base.toKey], unitSignature,
    unitImage.flip true, by decide +kernel, ?_, by decide +kernel⟩
  have hcoded : Point.ofKey? (unitImage.flip true).toKey = some (unitImage.flip true) := by
    decide +kernel
  rw [point?_eq]
  exact hcoded

end ConfidentialTx.Edwards
