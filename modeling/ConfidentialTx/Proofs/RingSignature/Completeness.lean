import ConfidentialTx.RingSignature
import ConfidentialTx.Proofs.Entropy
import ConfidentialTx.Proofs.Group.Residue
import ConfidentialTx.Proofs.Group.Response

/-! Ring signatures are accepted if they were made with a secret. The verifier decodes the members that
the signer made up and the signer itself, gets the same digest from them, and finds that their
challenges add up to it. -/
namespace ConfidentialTx.RingSignature

open KeyGroup

variable {C : KeyGroup}

def Member.element (m : Member C) : RingElement :=
  ⟨C.scalarKey m.challenge, C.scalarKey m.response⟩

def Member.Decodes (m : Member C) : Prop := C.point? m.key = some m.point

/-- Members that were made up as decoys for some keys. -/
structure Pose (image : C.Point) (keys : List Key) (ds : List (Decoy C)) (ms : List (Member C)) :
    Prop where
  decodes : ∀ m ∈ ms, m.Decodes
  keys : ms.map (·.key) = keys
  elements : ms.map Member.element = ds.map (Decoy.element C)
  transcripts : ms.map (Member.transcript C image) = ds.map (·.transcript)
  challenges : ms.map (·.challenge) = ds.map (·.challenge)

theorem exists_member_of_decoy {image : C.Point} {key : Key} {d : Decoy C}
    (h : (decoy C image key).Yields d) : ∃ P, C.point? key = some P ∧
      d.transcript = Member.transcript C image ⟨key, P, d.challenge, d.response⟩ := by
  rw [decoy] at h
  cases hP : C.point? key with
  | none =>
    rw [hP] at h
    exact absurd h Draw.not_yields_throw
  | some P =>
    rw [hP] at h
    obtain ⟨c, -, h⟩ := h.of_bind
    obtain ⟨r, -, h⟩ := h.of_bind
    rw [Draw.yields_pure_iff.mp h]
    exact ⟨P, rfl, rfl⟩

theorem exists_pose {image : C.Point} {keys : List Key} {ds : List (Decoy C)}
    (h : List.Forall₂ (fun k d => (decoy C image k).Yields d) keys ds) :
    ∃ ms, Pose image keys ds ms := by
  induction h with
  | nil => exact ⟨[], by simp, rfl, rfl, rfl, rfl⟩
  | @cons k d keys ds hd _ ih =>
    obtain ⟨P, hP, htranscript⟩ := exists_member_of_decoy hd
    obtain ⟨ms, hms⟩ := ih
    refine ⟨⟨k, P, d.challenge, d.response⟩ :: ms, List.forall_mem_cons.mpr ⟨hP, hms.decodes⟩, ?_, ?_,
      ?_, ?_⟩
    · rw [List.map_cons, hms.keys]
    · rw [List.map_cons, List.map_cons, hms.elements]
      rfl
    · rw [List.map_cons, List.map_cons, hms.transcripts, htranscript]
    · rw [List.map_cons, List.map_cons, hms.challenges]

theorem members_map [Responsive C] {ms : List (Member C)} (h : ∀ m ∈ ms, m.Decodes) (i : ℕ) :
    members C i (ms.map (·.key)) (ms.map Member.element) = .ok ms := by
  induction ms generalizing i with
  | nil => rfl
  | cons m ms ih =>
    obtain ⟨hm, hms⟩ := List.forall_mem_cons.mp h
    rw [Member.Decodes] at hm
    simp only [List.map_cons, members, Member.element, Responsive.scalar?_scalarKey, hm]
    rw [ih hms (i + 1)]
    rfl

/-- A signature is accepted if its challenges add up to the digest of the members that it was made
from. -/
theorem check_of_members [Responsive C] (message : Digest) {image : Key} {I : C.Point}
    {ms : List (Member C)} (hne : ms ≠ []) (hdecodes : ∀ m ∈ ms, m.Decodes)
    (hI : C.point? image = some I)
    (hclose : C.scalarIsZero (C.scalarSub (challenge C message (ms.map (Member.transcript C I)))
      (total C (ms.map (·.challenge)))) = true) :
    check C message image (ms.map (·.key)) ⟨ms.map Member.element⟩ = .ok () := by
  have hsize : ¬ ((ms.map (·.key)).length ≠ RingSignature.size ⟨ms.map Member.element⟩ ∨
      ms.map (·.key) = []) := by
    simp [size, hne]
  simp only [check, if_neg hsize, hI, members_map hdecodes]
  exact if_pos hclose

/-- The digest of all members is the sum of their challenges if the signer's is what the others leave
of it. -/
theorem isZero_sub_total [ScalarAction C] (h : C.Scalar) (before after : List C.Scalar) :
    C.scalarIsZero (C.scalarSub h (total C
      (before ++ C.scalarSub h (total C (before ++ after)) :: after))) = true := by
  have htotal : ∀ cs : List C.Scalar,
      ScalarAction.residue (total C cs) = (cs.map ScalarAction.residue).sum := by
    intro cs
    rw [total, map_foldl_add ScalarAction.residue_add, ScalarAction.residue_ofAmount]
    simp
  rw [ScalarAction.isZero_iff, ScalarAction.residue_sub, htotal, List.map_append, List.map_cons,
    ScalarAction.residue_sub, htotal, List.map_append, List.sum_append, List.sum_cons,
    List.sum_append]
  ring

variable (C) in
/-- The signer as the verifier sees it. -/
def signer (secret c nonce : C.Scalar) : Member C :=
  ⟨C.publicKey secret, C.smulBase secret, c, C.scalarMulSub c secret nonce⟩

/-- With its response the signer adds to the digest what it did with its nonce. -/
theorem transcript_signer [Responsive C] (secret c nonce : C.Scalar) :
    Member.transcript C (C.smul secret (C.hashToPoint (C.publicKey secret)))
        (signer C secret c nonce) =
      transcript C (C.smulBase nonce) (C.smul nonce (C.hashToPoint (C.publicKey secret))) := by
  rw [Member.transcript, signer, leftPoint, rightPoint, Responsive.smulAddBase_response,
    Responsive.smulAdd_response]

section

variable {message : Digest} {mixins : List Key} {secret : C.Scalar} {index : ℕ}

theorem check_of_signAt [ScalarAction C] [Responsive C] {s : Signed}
    (h : (signAt C message mixins secret (C.smul secret (C.hashToPoint (C.publicKey secret)))
      index).Yields s) :
    s.keyImage = C.keyImage secret ∧
      s.publicKeys = mixins.take index ++ C.publicKey secret :: mixins.drop index ∧
      check C message s.keyImage s.publicKeys s.signature = .ok () := by
  obtain ⟨nonce, -, h⟩ := h.of_bind
  obtain ⟨before, hbefore, h⟩ := h.of_bind
  obtain ⟨after, hafter, h⟩ := h.of_bind
  obtain ⟨msBefore, hmsBefore⟩ := exists_pose hbefore.of_mapM
  obtain ⟨msAfter, hmsAfter⟩ := exists_pose hafter.of_mapM
  rw [Draw.yields_pure_iff.mp h]
  refine ⟨rfl, rfl, ?_⟩
  generalize hd : challenge C message (before.map (·.transcript) ++ transcript C (C.smulBase nonce)
    (C.smul nonce (C.hashToPoint (C.publicKey secret))) :: after.map (·.transcript)) = d
  generalize hc : C.scalarSub d (total C ((before ++ after).map (·.challenge))) = c
  have hdecodes : ∀ m ∈ msBefore ++ signer C secret c nonce :: msAfter, m.Decodes :=
    List.forall_mem_append.mpr ⟨hmsBefore.decodes,
      List.forall_mem_cons.mpr ⟨Responsive.point?_pointKey _, hmsAfter.decodes⟩⟩
  have hclose := isZero_sub_total d (before.map (·.challenge)) (after.map (·.challenge))
  rw [← List.map_append, hc] at hclose
  have hcheck := check_of_members message (by simp) hdecodes
    (Responsive.point?_pointKey (C.smul secret (C.hashToPoint (C.publicKey secret))))
  simp only [List.map_append, List.map_cons, hmsBefore.keys, hmsAfter.keys, hmsBefore.elements,
    hmsAfter.elements, hmsBefore.transcripts, hmsAfter.transcripts, hmsBefore.challenges,
    hmsAfter.challenges, transcript_signer, hd] at hcheck
  exact hcheck hclose

theorem total_decoy {image : C.Point} {key : Key} (h : (C.point? key).isSome = true) :
    (decoy C image key).Total := by
  obtain ⟨P, hP⟩ := Option.isSome_iff_exists.mp h
  rw [decoy, hP]
  refine (Draw.total_scalar C).bind fun c _ => (Draw.total_scalar C).bind fun r _ => ?_
  exact Draw.total_pure _

theorem total_signAt {image : C.Point} (h : ∀ k ∈ mixins, (C.point? k).isSome = true) :
    (signAt C message mixins secret image index).Total := by
  have hbefore : ∀ k ∈ mixins.take index, (decoy C image k).Total := fun k hk =>
    total_decoy (h k (List.mem_of_mem_take hk))
  have hafter : ∀ k ∈ mixins.drop index, (decoy C image k).Total := fun k hk =>
    total_decoy (h k (List.mem_of_mem_drop hk))
  refine (Draw.total_scalar C).bind fun nonce _ => ?_
  refine (Draw.total_mapM hbefore).bind fun before _ => ?_
  exact (Draw.total_mapM hafter).bind fun after _ => Draw.total_pure _

theorem keyImage_of_sign {attempts : ℕ} {s : Signed}
    (h : (sign C attempts message mixins secret).Yields s) : s.keyImage = C.keyImage secret := by
  rw [sign] at h
  split at h
  · exact absurd h Draw.not_yields_throw
  obtain ⟨index, -, h⟩ := h.of_bind
  obtain ⟨nonce, -, h⟩ := h.of_bind
  obtain ⟨before, -, h⟩ := h.of_bind
  obtain ⟨after, -, h⟩ := h.of_bind
  rw [Draw.yields_pure_iff.mp h]

theorem isSome_of_signAt {image : C.Point} {s : Signed}
    (h : (signAt C message mixins secret image index).Yields s) :
    ∀ k ∈ mixins, (C.point? k).isSome = true := by
  obtain ⟨nonce, -, h⟩ := h.of_bind
  obtain ⟨before, hbefore, h⟩ := h.of_bind
  obtain ⟨after, hafter, -⟩ := h.of_bind
  have hall : List.Forall₂ (fun k d => (decoy C image k).Yields d)
      (mixins.take index ++ mixins.drop index) (before ++ after) :=
    List.rel_append hbefore.of_mapM hafter.of_mapM
  rw [List.take_append_drop] at hall
  refine forall_mem_right hall.flip ?_
  intro d k hd
  obtain ⟨P, hP, -⟩ := exists_member_of_decoy hd
  rw [hP]
  rfl

end

/-- With a stream from which a place in the ring can be drawn, signing succeeds exactly if every other
key is a point. The ring then has the signer's key at that place, and the signature is accepted. -/
theorem verify_sign [ScalarAction C]
    (hcofactor : ∀ P, ScalarAction.order C • C.mulByCofactor P = 0)
    (hpoint : ∀ P, C.point? (C.pointKey P) = some P)
    (hscalar : ∀ k a, C.scalar? k = some a ↔ k = C.scalarKey a)
    {attempts index : ℕ} {message : Digest} {mixins : List Key} {secret : C.Scalar}
    {e e₁ : Entropy} (hdraw : Draw.below attempts (mixins.length + 1) e = .ok (index, e₁)) :
    ((∃ s e', sign C attempts message mixins secret e = .ok (s, e')) ↔
        ∀ k ∈ mixins, (C.point? k).isSome = true) ∧
      ∀ s e', sign C attempts message mixins secret e = .ok (s, e') →
        index ≤ mixins.length ∧
          s.publicKeys = mixins.take index ++ C.publicKey secret :: mixins.drop index ∧
          s.keyImage = C.keyImage secret ∧
          verify C message s.keyImage s.publicKeys s.signature = true := by
  have hresponsive := ScalarAction.responsive hcofactor hpoint hscalar
  have hsign : sign C attempts message mixins secret e = signAt C message mixins secret
      (C.smul secret (C.hashToPoint (C.publicKey secret))) index e₁ := by
    rw [sign, keyImage, hpoint]
    exact Draw.bind_of_ok hdraw
  rw [hsign]
  refine ⟨⟨?_, ?_⟩, ?_⟩
  · rintro ⟨s, e', h⟩
    exact isSome_of_signAt ⟨e₁, e', h⟩
  · intro h
    exact total_signAt h e₁
  · intro s e' h
    obtain ⟨himage, hkeys, hcheck⟩ := check_of_signAt ⟨e₁, e', h⟩
    have hindex := Draw.below_lt (Nat.succ_pos _) ⟨e, e₁, hdraw⟩
    refine ⟨Nat.lt_succ_iff.mp hindex, hkeys, himage, ?_⟩
    rw [verify, hcheck]
    rfl

open Residue (wideGroup wideOrder_pos)

def twins : List Key := List.replicate 2 (wideGroup.publicKey (Residue.ofNat wideOrder_pos 5))

def signerSecret : wideGroup.Scalar := Residue.ofNat wideOrder_pos 9

/-- Someone signs between two members that have the same key. -/
theorem verify_sign_wideGroup : ∃ s e',
    sign wideGroup 1 (Tuple.replicate 32 7) twins signerSecret ⟨fun k => UInt8.ofNat (k + 100), 0⟩ =
        .ok (s, e') ∧
      s.publicKeys = twins.take 1 ++ wideGroup.publicKey signerSecret :: twins.drop 1 ∧
      s.keyImage = wideGroup.keyImage signerSecret ∧
      verify wideGroup (Tuple.replicate 32 7) s.keyImage s.publicKeys s.signature = true := by
  have hdraw : Draw.below 1 (twins.length + 1) ⟨fun k => UInt8.ofNat (k + 100), 0⟩ =
      .ok (1, ⟨fun k => UInt8.ofNat (k + 100), 8⟩) := rfl
  have hcofactor := Lawful.order_nsmul_mulByCofactor (C := wideGroup)
  have hpoint := Lawful.point?_pointKey (C := wideGroup)
  have hscalar := Lawful.scalar?_eq_some_iff (C := wideGroup)
  have htwins : ∀ k ∈ twins, (wideGroup.point? k).isSome = true := by
    intro k hk
    rw [List.eq_of_mem_replicate hk]
    exact Option.isSome_iff_exists.mpr ⟨_, hpoint _⟩
  obtain ⟨s, e', hs⟩ : ∃ s e', sign wideGroup 1 (Tuple.replicate 32 7) twins signerSecret
      ⟨fun k => UInt8.ofNat (k + 100), 0⟩ = .ok (s, e') :=
    (verify_sign hcofactor hpoint hscalar hdraw).1.mpr htwins
  obtain ⟨-, hring, himage, hverify⟩ := (verify_sign hcofactor hpoint hscalar hdraw).2 s e' hs
  exact ⟨s, e', hs, hring, himage, hverify⟩

end ConfidentialTx.RingSignature
