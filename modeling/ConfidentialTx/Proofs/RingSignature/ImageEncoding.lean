import ConfidentialTx.Proofs.Edwards.Encoding
import ConfidentialTx.Proofs.RingSignature.Linkability

/-! Key images written in several ways. The verifier knows a key image by its point alone, so a
signature that is accepted for one key of the point is accepted for each of them. -/
namespace ConfidentialTx.Edwards

open Coordinate RingSignature

variable {message : Digest} {image image' : Key} {I : Point} {ring : List Key} {s : RingSignature}

theorem verify_eq_of_ofKey?_eq (hI : Point.ofKey? image = some I)
    (hI' : Point.ofKey? image' = some I) :
    RingSignature.verify group message image' ring s =
      RingSignature.verify group message image ring s := by
  rw [← point?_eq] at hI hI'
  exact verify_congr hI hI' fun _ _ _ _ => rfl

/-- A signature that is accepted for one key image is accepted for every key of its point. That is a
single one exactly if the `y` of the point is `19` or more and its `x` is not zero. -/
theorem verify_iff_mem_encodings
    (h : RingSignature.verify group message image ring s = true)
    (hI : Point.ofKey? image = some I) :
    (∀ image', (RingSignature.verify group message image' ring s = true ∧
        Point.ofKey? image' = some I) ↔ Bytes.toNatLE image'.toList ∈ I.encodings) ∧
      ((∀ image', RingSignature.verify group message image' ring s = true →
        Point.ofKey? image' = some I → image' = image) ↔ 19 ≤ I.y ∧ I.x ≠ 0) := by
  have hcoded := Point.coded_of_ofKey? hI
  have haccepted : ∀ image', Point.ofKey? image' = some I →
      RingSignature.verify group message image' ring s = true := fun image' hI' =>
    (verify_eq_of_ofKey?_eq hI hI').trans h
  refine ⟨fun image' => ?_, ?_⟩
  · rw [← Point.ofKey?_eq_some_iff hcoded]
    exact ⟨fun h => h.2, fun hI' => ⟨haccepted image' hI', hI'⟩⟩
  · rw [← Point.forall_ofKey?_eq_iff hI]
    exact ⟨fun hunique image' hI' => hunique image' (haccepted image' hI') hI',
      fun hunique image' _ hI' => hunique image' hI'⟩

/-- Signed with the secret `0`, whose public key and key image are the neutral point, the nonce `3`
and a message of zeros. -/
def zeroSignature : RingSignature :=
  ⟨[⟨Residue.toKey (n := order)
      ⟨0x036fd71b6d59d097cbde9b2bdc2cccbfbff93e2849a30f92e7c63df5e65277cb, by decide⟩,
    Residue.toKey (n := order) ⟨3, by decide⟩⟩]⟩

def signedZeroKey : Key := ⟨Bytes.ofNatLE 32 (1 + signBit), by simp⟩

theorem verify_zeroSignature : RingSignature.verify group (Tuple.replicate 32 0) Point.zero.toKey
    [Point.zero.toKey] zeroSignature = true := by
  decide +kernel

theorem ofKey?_zero_toKey : Point.ofKey? Point.zero.toKey = some .zero := by
  decide +kernel

theorem ofKey?_signedZeroKey : Point.ofKey? signedZeroKey = some .zero := by
  decide +kernel

/-- The signature of the secret `0` is accepted for four key images. -/
theorem verify_iff_mem_encodings_zero :
    group.keyImage (⟨0, by decide⟩ : Fin order) = Point.zero.toKey ∧
      (∀ image', (RingSignature.verify group (Tuple.replicate 32 0) image' [Point.zero.toKey]
        zeroSignature = true ∧ Point.ofKey? image' = some .zero) ↔
          Bytes.toNatLE image'.toList ∈ [1, 1 + signBit, 1 + p, 1 + p + signBit]) ∧
      ¬ ∀ image', RingSignature.verify group (Tuple.replicate 32 0) image' [Point.zero.toKey]
        zeroSignature = true → Point.ofKey? image' = some .zero → image' = Point.zero.toKey := by
  have himage : group.keyImage (⟨0, by decide⟩ : Fin order) = Point.zero.toKey := by
    decide +kernel
  have hlist : Point.zero.encodings = [1, 1 + signBit, 1 + p, 1 + p + signBit] := by
    decide +kernel
  obtain ⟨hkeys, hunique⟩ := verify_iff_mem_encodings verify_zeroSignature ofKey?_zero_toKey
  rw [hlist] at hkeys
  exact ⟨himage, hkeys, fun h => (hunique.mp h).2 rfl⟩

/-- One signature is accepted for two key images that are the same point. -/
theorem exists_verified_twice : ∃ (message : Digest) (image image' : Key) (ring : List Key)
    (s : RingSignature) (I : Point), RingSignature.verify group message image ring s = true ∧
      RingSignature.verify group message image' ring s = true ∧
      Point.ofKey? image = some I ∧ Point.ofKey? image' = some I ∧ image ≠ image' := by
  have hother : RingSignature.verify group (Tuple.replicate 32 0) signedZeroKey [Point.zero.toKey]
      zeroSignature = true :=
    (verify_eq_of_ofKey?_eq ofKey?_zero_toKey ofKey?_signedZeroKey).trans verify_zeroSignature
  exact ⟨Tuple.replicate 32 0, Point.zero.toKey, signedZeroKey, [Point.zero.toKey], zeroSignature,
    .zero, verify_zeroSignature, hother, ofKey?_zero_toKey, ofKey?_signedZeroKey,
    by decide +kernel⟩

end ConfidentialTx.Edwards
