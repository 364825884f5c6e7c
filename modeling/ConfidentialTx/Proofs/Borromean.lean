import ConfidentialTx.Borromean
import ConfidentialTx.Proofs.Entropy
import ConfidentialTx.Proofs.Group.Residue
import ConfidentialTx.Proofs.Group.Response

/-! Ring signatures over pairs of points are valid if they were made with the right secrets. The
key that a ring adds to the challenge is the same for the signer and for the verifier. -/
namespace ConfidentialTx.Borromean

open KeyGroup KeyGroup.ScalarAction

variable {C : KeyGroup}

/-- The secret is the logarithm of the point that is said to be the signer's. -/
def Ring.IsOwned (r : Ring C) : Prop :=
  (if r.isSecond then r.second else r.first) = C.smulBase r.secret

structure Opened.Of (o : Opened C) (r : Ring C) : Prop where
  ring_eq : o.ring = r
  last_eq : o.last = C.pointKey (if r.isSecond then C.smulBase o.nonce
    else C.smulAddBase (C.hashOfPoint (C.smulBase o.nonce)) r.second o.second)

theorem of_openRing {r : Ring C} {o : Opened C} (h : (openRing C r).Yields o) : o.Of r := by
  obtain ⟨nonce, -, h⟩ := h.of_bind
  by_cases hr : r.isSecond
  · rw [if_pos hr] at h
    rw [Draw.yields_pure_iff.mp h]
    exact ⟨rfl, by rw [if_pos hr]⟩
  · rw [if_neg hr] at h
    obtain ⟨s, -, h⟩ := h.of_bind
    rw [Draw.yields_pure_iff.mp h]
    exact ⟨rfl, by rw [if_neg hr]⟩

variable (C) in
/-- Two responses of a ring from which the verifier gets a certain key. -/
def Closes (challenge : C.Scalar) (r : Ring C) (last : Key) (responses : Key × Key) : Prop :=
  ∃ s t, responses = (C.scalarKey s, C.scalarKey t) ∧
    lastKey C challenge r.first r.second s t = last

theorem total_openRing (r : Ring C) : (openRing C r).Total := by
  refine (Draw.total_scalar C).bind fun nonce _ => ?_
  by_cases hr : r.isSecond
  · rw [if_pos hr]
    exact Draw.total_pure _
  · rw [if_neg hr]
    exact (Draw.total_scalar C).bind fun s _ => Draw.total_pure _

theorem total_closeRing (challenge : C.Scalar) (o : Opened C) : (closeRing C challenge o).Total := by
  rw [closeRing]
  by_cases hr : o.ring.isSecond
  · rw [if_pos hr]
    exact (Draw.total_scalar C).bind fun s _ => Draw.total_pure _
  · rw [if_neg hr]
    exact Draw.total_pure _

theorem total_signRings (rings : Tuple (Ring C) 64) : (signRings C rings).Total := by
  refine (Draw.total_tuple fun r _ => total_openRing r).bind fun opened _ => ?_
  refine (Draw.total_tuple fun o _ => total_closeRing _ o).bind fun responses _ => ?_
  exact Draw.total_pure _

section Completeness

variable [ScalarAction C]

theorem closes_of_closeRing {challenge : C.Scalar} {r : Ring C} {o : Opened C}
    {responses : Key × Key} (ho : o.Of r) (hr : r.IsOwned)
    (h : (closeRing C challenge o).Yields responses) : Closes C challenge r o.last responses := by
  obtain ⟨rfl, hlast⟩ := ho
  rw [Ring.IsOwned] at hr
  rw [closeRing] at h
  rw [hlast]
  by_cases hs : o.ring.isSecond
  · rw [if_pos hs] at h hr
    obtain ⟨s, -, h⟩ := h.of_bind
    refine ⟨s, _, Draw.yields_pure_iff.mp h, ?_⟩
    rw [if_pos hs, lastKey, hr, scalarMulSub_comm, smulAddBase_response]
  · rw [if_neg hs] at h hr
    refine ⟨_, o.second, Draw.yields_pure_iff.mp h, ?_⟩
    rw [if_neg hs, lastKey, hr, scalarMulSub_comm, smulAddBase_response]

variable (hscalar : ∀ k a, C.scalar? k = some a ↔ k = C.scalarKey a)
include hscalar

theorem lastKeys_eq_some {challenge : C.Scalar} {rings : List (Ring C)} {opened : List (Opened C)}
    {responses : List (Key × Key)} (ho : List.Forall₂ (fun r o => o.Of r) rings opened)
    (hr : ∀ r ∈ rings, r.IsOwned)
    (h : List.Forall₂ (fun o p => (closeRing C challenge o).Yields p) opened responses) :
    lastKeys C challenge (rings.map (·.first)) (rings.map (·.second)) (responses.map (·.1))
      (responses.map (·.2)) = some (opened.map (·.last)) := by
  induction ho generalizing responses with
  | nil =>
    cases h
    rfl
  | cons hro _ ih =>
    cases h with
    | cons hp hps =>
      obtain ⟨hr₁, hr₂⟩ := List.forall_mem_cons.mp hr
      obtain ⟨s, t, rfl, hlast⟩ := closes_of_closeRing hro hr₁ hp
      have hcodec : ∀ a, C.scalar? (C.scalarKey a) = some a := fun a => (hscalar _ a).mpr rfl
      simp [lastKeys, ih hr₂ hps, hlast, hcodec]

theorem verifyRings_signRings {rings : Tuple (Ring C) 64} {signature : Signature}
    (hr : ∀ r ∈ rings.toList, r.IsOwned) (h : (signRings C rings).Yields signature) :
    verifyRings C signature (rings.map (·.first)) (rings.map (·.second)) = true := by
  obtain ⟨opened, hopened, h⟩ := h.of_bind
  obtain ⟨responses, hresponses, h⟩ := h.of_bind
  rw [Draw.yields_pure_iff.mp h]
  have ho := hopened.of_tuple.imp fun _ _ => of_openRing
  have hkeys := lastKeys_eq_some hscalar ho hr hresponses.of_tuple
  have hcodec : ∀ a, C.scalar? (C.scalarKey a) = some a := fun a => (hscalar _ a).mpr rfl
  simp only [verifyRings, hcodec, Tuple.toList_map] at hkeys ⊢
  rw [hkeys]
  exact beq_self_eq_true _

end Completeness

/-! ## Rings given as lists -/

theorem sized_toList {α : Type} (field : String) (t : Tuple α 64) : sized field t.toList = .ok t := by
  simp [sized]

theorem length_of_sized {α : Type} {field : String} {l : List α} {t : Tuple α 64}
    (h : sized field l = .ok t) : l.length = 64 := by
  rw [sized] at h
  split at h
  · rename_i u hu
    rw [← Tuple.ofList?_eq_some_iff.mp hu, u.length_toList]
  · cases h

def assemble (secrets : Tuple C.Scalar 64) (first second : Tuple C.Point 64)
    (isSecond : Tuple Bool 64) : Tuple (Ring C) 64 :=
  Tuple.zipWith (fun r b => r b) (Tuple.zipWith (fun r q => r q)
    (Tuple.zipWith (fun x p => Ring.mk x p) secrets first) second) isSecond

theorem sign_toList (secrets : Tuple C.Scalar 64) (first second : Tuple C.Point 64)
    (isSecond : Tuple Bool 64) :
    sign C secrets.toList first.toList second.toList isSecond.toList =
    signRings C (assemble secrets first second isSecond) := by
  rw [sign, sized_toList, sized_toList, sized_toList, sized_toList]
  rfl

variable {secrets : Tuple C.Scalar 64} {first second : Tuple C.Point 64} {isSecond : Tuple Bool 64}

theorem getElem?_assemble (i : ℕ) : (assemble secrets first second isSecond).toList[i]? =
    secrets.toList[i]?.bind fun x => first.toList[i]?.bind fun P => second.toList[i]?.bind fun Q =>
      isSecond.toList[i]?.map fun b => Ring.mk x P Q b := by
  simp only [assemble, Tuple.toList_zipWith, List.getElem?_zipWith]
  cases secrets.toList[i]? <;> cases first.toList[i]? <;> cases second.toList[i]? <;>
    cases isSecond.toList[i]? <;> rfl

theorem map_first_assemble : (assemble secrets first second isSecond).map (·.first) = first := by
  apply Tuple.ext
  apply List.ext_getElem
  · simp
  · intro i h₁ h₂
    simp [assemble]

theorem map_second_assemble : (assemble secrets first second isSecond).map (·.second) = second := by
  apply Tuple.ext
  apply List.ext_getElem
  · simp
  · intro i h₁ h₂
    simp [assemble]

variable (C) in
/-- Every secret is the logarithm of the second point of its ring, where this is said, and of the
first point elsewhere. -/
def Owned (secrets : List C.Scalar) (first second : List C.Point) (isSecond : List Bool) : Prop :=
  ∀ (i : ℕ) (x : C.Scalar) (P Q : C.Point) (b : Bool), secrets[i]? = some x → first[i]? = some P →
    second[i]? = some Q → isSecond[i]? = some b → C.smulBase x = if b then Q else P

theorem isOwned_of_owned
    (h : Owned C secrets.toList first.toList second.toList isSecond.toList) :
    ∀ r ∈ (assemble secrets first second isSecond).toList, r.IsOwned := by
  intro r hr
  obtain ⟨i, hi⟩ := List.getElem?_of_mem hr
  rw [getElem?_assemble] at hi
  simp only [Option.bind_eq_some_iff, Option.map_eq_some_iff] at hi
  obtain ⟨x, hx, P, hP, Q, hQ, b, hb, rfl⟩ := hi
  exact (h i x P Q b hx hP hQ hb).symm

theorem lengths_of_sign {secrets : List C.Scalar} {first second : List C.Point}
    {isSecond : List Bool} {s : Signature} (h : (sign C secrets first second isSecond).Yields s) :
    secrets.length = 64 ∧ first.length = 64 ∧ second.length = 64 ∧ isSecond.length = 64 := by
  obtain ⟨_, h₁, h⟩ := h.of_bind
  obtain ⟨_, h₂, h⟩ := h.of_bind
  obtain ⟨_, h₃, h⟩ := h.of_bind
  obtain ⟨_, h₄, -⟩ := h.of_bind
  exact ⟨length_of_sized h₁.of_lift, length_of_sized h₂.of_lift, length_of_sized h₃.of_lift,
    length_of_sized h₄.of_lift⟩

/-- On every stream, signing succeeds exactly if there are 64 of everything. Whoever owns one point
of each ring then gets a signature that is accepted, whichever points these are. -/
theorem verify_sign_of_owned [ScalarAction C]
    (hscalar : ∀ k a, C.scalar? k = some a ↔ k = C.scalarKey a) (secrets : List C.Scalar)
    (first second : List C.Point) (isSecond : List Bool) (e : Entropy) :
    ((∃ s e', sign C secrets first second isSecond e = .ok (s, e')) ↔
        secrets.length = 64 ∧ first.length = 64 ∧ second.length = 64 ∧ isSecond.length = 64) ∧
      ∀ s e', sign C secrets first second isSecond e = .ok (s, e') →
        Owned C secrets first second isSecond → verify C s first second = true := by
  refine ⟨⟨?_, ?_⟩, ?_⟩
  · rintro ⟨s, e', h⟩
    exact lengths_of_sign ⟨e, e', h⟩
  · rintro ⟨h₁, h₂, h₃, h₄⟩
    rw [sign_toList ⟨_, h₁⟩ ⟨_, h₂⟩ ⟨_, h₃⟩ ⟨_, h₄⟩]
    exact total_signRings _ e
  · intro s e' h howned
    obtain ⟨h₁, h₂, h₃, h₄⟩ := lengths_of_sign ⟨e, e', h⟩
    rw [sign_toList ⟨_, h₁⟩ ⟨_, h₂⟩ ⟨_, h₃⟩ ⟨_, h₄⟩] at h
    have hverify := verifyRings_signRings hscalar (isOwned_of_owned howned) ⟨e, e', h⟩
    rw [map_first_assemble, map_second_assemble] at hverify
    simp only [verify, Tuple.ofList?, dif_pos h₂, dif_pos h₃]
    exact hverify

open Residue (wideGroup wideOrder_pos)

def signerSecret (i : ℕ) : wideGroup.Scalar := Residue.ofNat wideOrder_pos (7 * i + 1)

def signerPoint (i : ℕ) : wideGroup.Point := wideGroup.smulBase (signerSecret i)

def decoyPoint (i : ℕ) : wideGroup.Point := Residue.ofNat wideOrder_pos (1000 + i)

def mixedIndices : List Bool := (List.range 64).map fun i => i % 3 == 0

def mixedFirst : List wideGroup.Point :=
  (List.range 64).map fun i => if i % 3 == 0 then decoyPoint i else signerPoint i

def mixedSecond : List wideGroup.Point :=
  (List.range 64).map fun i => if i % 3 == 0 then signerPoint i else decoyPoint i

theorem owned_mixed :
    Owned wideGroup ((List.range 64).map signerSecret) mixedFirst mixedSecond mixedIndices := by
  intro i x P Q b hx hP hQ hb
  simp only [mixedFirst, mixedSecond, mixedIndices, List.getElem?_map] at hx hP hQ hb
  cases hi : (List.range 64)[i]? with
  | none =>
    rw [hi] at hx
    cases hx
  | some j =>
    rw [hi] at hx hP hQ hb
    cases hx
    cases hP
    cases hQ
    cases hb
    show signerPoint j = if j % 3 == 0 then if j % 3 == 0 then signerPoint j else decoyPoint j
      else if j % 3 == 0 then decoyPoint j else signerPoint j
    by_cases hthird : j % 3 == 0
    · rw [if_pos hthird, if_pos hthird]
    · rw [if_neg hthird, if_neg hthird]

theorem verify_sign_of_owned_wideGroup : ∃ s e',
    sign wideGroup ((List.range 64).map signerSecret) mixedFirst mixedSecond mixedIndices
        ⟨fun k => UInt8.ofNat k, 0⟩ = .ok (s, e') ∧
      verify wideGroup s mixedFirst mixedSecond = true := by
  have hsigned := verify_sign_of_owned (C := wideGroup) Lawful.scalar?_eq_some_iff
    ((List.range 64).map signerSecret) mixedFirst mixedSecond mixedIndices
    ⟨fun k => UInt8.ofNat k, 0⟩
  obtain ⟨s, e', hs⟩ := hsigned.1.mpr ⟨rfl, rfl, rfl, rfl⟩
  exact ⟨s, e', hs, hsigned.2 s e' hs owned_mixed⟩

end ConfidentialTx.Borromean
