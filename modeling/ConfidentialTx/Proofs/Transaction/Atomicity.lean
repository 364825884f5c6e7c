import ConfidentialTx.Proofs.Transaction.Identity
import ConfidentialTx.Transaction.InPlace

/-! Expansion in place. An attempt that fails leaves the transaction as it was, and no attempt changes
what is on the wire or any digest of it. -/
namespace ConfidentialTx.Transaction

namespace Update

variable {α β : Type}

theorem check_bind (x : Except Error α) (f : α → Update β) (t : Transaction) :
    (check x >>= f) t =
      match x with
      | .ok a => f a t
      | .error e => .error e t := by
  cases x <;> rfl

theorem require_bind (p : Prop) [Decidable p] (e : Error) (f : Unit → Update β) (t : Transaction) :
    (require p e >>= f) t = if p then f () t else .error e t := by
  by_cases h : p
  · rw [require, if_pos h, if_pos h]
    rfl
  · rw [require, if_neg h, if_neg h]
    rfl

theorem assign_bind (b : Body) (s : Confidential.Signature) (state : State)
    (g : Confidential.Signature → Confidential.Signature) (f : Unit → Update β) :
    (assign g >>= f) ⟨b, .confidential s, state⟩ = f () ⟨b, .confidential (g s), state⟩ := rfl

end Update

theorem assignEach_eq_zipWith {α β : Type} {f : α → β → α} {as : List α} {bs : List β}
    (h : as.length = bs.length) : assignEach f as bs = List.zipWith f as bs := by
  induction as generalizing bs with
  | nil => rfl
  | cons a as ih =>
    cases bs with
    | nil => cases h
    | cons b bs => rw [assignEach, List.zipWith_cons_cons, ih (Nat.succ.inj h)]

theorem fillSpends_bind {β : Type} (b : Body) (s : Confidential.Signature) (state : State)
    (images : List Key) (rings : List (List Coin)) (f : Unit → Update β) :
    (fillSpends s images rings >>= f) ⟨b, .confidential s, state⟩ =
      match expandSpends s images rings with
      | .ok (rings, proofs) =>
        f () ⟨b, .confidential { s with rings := rings, spendProofs := proofs }, state⟩
      | .error e => .error e ⟨b, .confidential s, state⟩ := by
  obtain ⟨kind, message, oldRings, pseudos, masked, outputs, fee, ranges, proofs⟩ := s
  cases kind with
  | full =>
    simp only [fillSpends, expandSpends, bind_assoc, Update.require_bind, Update.assign_bind]
    rcases proofs with _ | ⟨proof, _ | ⟨proof', proofs⟩⟩
    · rfl
    · rfl
    · rw [if_neg (by simp)]
  | null | simple =>
    simp only [fillSpends, expandSpends, bind_assoc, Update.require_bind, Update.assign_bind]
    by_cases hlength : proofs.length = images.length
    · rw [if_pos hlength, if_neg (not_not.mpr hlength), assignEach_eq_zipWith hlength]
    · rw [if_neg hlength, if_pos hlength]

/-- Expansion in place ends as `expand` does, with its transaction or its failure, and a failure leaves
the transaction that was there. -/
theorem expandInPlace_eq (t : Transaction) (rings : List (List Coin)) :
    expandInPlace rings t =
      match t.expand rings with
      | .ok t' => .ok () t'
      | .error e => .error e t := by
  obtain ⟨b, signatures, state⟩ := t
  have hget : ∀ f : Transaction → Update Unit,
      (get >>= f) ⟨b, signatures, state⟩ = f ⟨b, signatures, state⟩ ⟨b, signatures, state⟩ :=
    fun _ => rfl
  rw [expandInPlace, hget, expand]
  cases signatures with
  | ring ss => rfl
  | confidential s =>
    simp only
    by_cases hnull : s.kind = .null
    · rw [if_pos hnull, if_pos hnull]
      rfl
    rw [if_neg hnull, if_neg hnull, expandSignature]
    simp only [Update.check_bind, Update.require_bind, fillSpends_bind]
    -- Both sides make the same checks in the same order, and nothing is assigned before the last one
    -- but for those of the spend proofs, which `fillSpends_bind` has settled.
    have hok : ∀ {α β : Type} (a : α) (f : α → Except Error β), (Except.ok a >>= f) = f a :=
      fun _ _ => rfl
    cases keyImages b.inputs with
    | error e => rfl
    | ok images =>
    cases uniformMixin b.inputs with
    | error e => rfl
    | ok mixin =>
    simp only [hok]
    by_cases hrings : rings.length = b.inputs.length
    · rw [if_pos hrings, if_neg (not_not.mpr hrings)]
      cases checkRings b.inputs rings with
      | error e => rfl
      | ok u =>
      simp only [hok]
      by_cases houtputs : s.outputs.length = b.outputs.length
      · rw [if_pos houtputs, if_neg (not_not.mpr houtputs)]
        cases expandSpends s images rings with
        | error e => rfl
        | ok spends =>
          simp only [Update.assign_bind, assignEach_eq_zipWith houtputs]
          rfl
      · rw [if_neg houtputs, if_pos houtputs]
        rfl
    · rw [if_neg hrings, if_pos hrings]
      rfl

theorem after_expandInPlace (t : Transaction) (rings : List (List Coin)) :
    (expandInPlace rings).after t = t.tryExpand rings := by
  rw [Update.after, expandInPlace_eq, tryExpand]
  cases t.expand rings <;> rfl

theorem blank_tryExpand (t : Transaction) (rings : List (List Coin)) :
    (t.tryExpand rings).blank = t.blank := by
  rw [tryExpand]
  cases h : t.expand rings with
  | error e => rfl
  | ok t' =>
    rcases expand_cases h with ⟨-, rfl⟩ | ⟨s, s', hs, -, hs', rfl⟩
    · rfl
    · simp only [blank, Signatures.blank, hs, blank_of_expandSignature hs']

/-- Whatever is attempted, a transaction keeps the bytes and the hash that it was made with. -/
theorem blank_tryExpandAll (t : Transaction) (attempts : List (List (List Coin))) :
    (t.tryExpandAll attempts).blank = t.blank := by
  induction attempts generalizing t with
  | nil => rfl
  | cons rings attempts ih => rw [tryExpandAll, List.foldl_cons, ← tryExpandAll, ih, blank_tryExpand]

/-- Expansion is atomic: where it fails, the transaction is exactly what it was before. And whether it
fails or not, the body, the bytes and all digests of them stay the same. -/
theorem expandInPlace_atomic (t : Transaction) (rings : List (List Coin)) :
    (∀ e t', expandInPlace rings t = .error e t' → t.expand rings = .error e ∧ t' = t) ∧
      (expandInPlace rings).after t = t.tryExpand rings ∧
      ((expandInPlace rings).after t).body = t.body ∧
      ((expandInPlace rings).after t).toBytes = t.toBytes ∧
      ((expandInPlace rings).after t).hash = t.hash ∧
      ((expandInPlace rings).after t).confidential?.map (·.baseHash) =
        t.confidential?.map (·.baseHash) ∧
      ((expandInPlace rings).after t).confidential?.map (·.prunableHash) =
        t.confidential?.map (·.prunableHash) := by
  constructor
  · intro e t' h
    rw [expandInPlace_eq] at h
    cases hexpand : t.expand rings with
    | error e' =>
      rw [hexpand] at h
      cases h
      exact ⟨rfl, rfl⟩
    | ok t'' =>
      rw [hexpand] at h
      cases h
  · have hblank : ((expandInPlace rings).after t).blank = t.blank := by
      rw [after_expandInPlace, blank_tryExpand]
    have hbody : ((expandInPlace rings).after t).blank.body = t.blank.body := by rw [hblank]
    refine ⟨after_expandInPlace t rings, hbody, ?_, ?_, ?_, ?_⟩
    · rw [← toBytes_blank, hblank, toBytes_blank]
    · rw [← hash_blank, hblank, hash_blank]
    · rw [← map_baseHash_blank, hblank, map_baseHash_blank]
    · rw [← map_prunableHash_blank, hblank, map_prunableHash_blank]

end ConfidentialTx.Transaction
