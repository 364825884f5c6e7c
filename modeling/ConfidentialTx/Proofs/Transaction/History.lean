import ConfidentialTx.Edwards.Group
import ConfidentialTx.Proofs.Transaction.Restoration
import ConfidentialTx.Transaction.Verification

/-! Expansion leaves no trace of what was there before. Whatever a transaction was made with and
however often it was expanded, what is decided about it depends on its body, on what is written of
its signature, and on the rings of the last expansion that succeeded. -/
namespace ConfidentialTx

namespace Confidential

/-- A signature without the sender's keys. They are not written, and expansion leaves them alone. -/
def Signature.forgetSenders (s : Signature) : Signature :=
  { s with maskedAmounts := s.maskedAmounts.map fun m => { m with senderKey := .zero } }

theorem Signature.signedHash_forgetSenders (s : Signature) :
    s.forgetSenders.signedHash = s.signedHash := by
  simp only [signedHash, baseHash, baseBytes, rangeBytes, forgetSenders, List.flatMap_map]

theorem checkSpends_forgetSenders (C : KeyGroup) (s : Signature) :
    checkSpends C s.forgetSenders = checkSpends C s := by
  simp only [checkSpends, checkFullSpend, checkSimpleSpends, s.signedHash_forgetSenders]
  rfl

theorem check_forgetSenders (C : KeyGroup) (s : Signature) :
    check C s.forgetSenders = check C s := by
  have hamounts : checkAmounts C s.forgetSenders = checkAmounts C s := rfl
  rw [check, check, hamounts, checkSpends_forgetSenders]

end Confidential

namespace Transaction

/-! ## What one expansion reads and writes -/

theorem map_zipWith_of_forall {α β γ : Type} {f : α → β → α} {g : α → γ} {as : List α}
    {bs : List β} (h : as.length = bs.length) (hfg : ∀ a b, g (f a b) = g a) :
    (List.zipWith f as bs).map g = as.map g := by
  induction as generalizing bs with
  | nil => rfl
  | cons a as ih =>
    cases bs with
    | nil => cases h
    | cons b bs => rw [List.zipWith_cons_cons, List.map_cons, List.map_cons, hfg, ih (by simpa using h)]

theorem withDestinations_map_blank (coins : List Coin) (outputs : List Output) :
    withDestinations (coins.map fun coin => { coin with destination := .zero }) outputs =
      withDestinations coins outputs := by
  rw [withDestinations, List.zipWith_map_left]
  rfl

/-- The key images that were there are overwritten without being read. -/
theorem expandSpends_blank (s : Confidential.Signature) (images : List Key)
    (rings : List (List Coin)) : expandSpends s.blank images rings = expandSpends s images rings := by
  have hkind : s.blank.kind = s.kind := rfl
  have hproofs : s.blank.spendProofs = s.spendProofs.map fun m => { m with images := [] } := rfl
  rw [expandSpends, expandSpends, hkind, hproofs]
  cases s.kind with
  | full => rcases s.spendProofs with _ | ⟨proof, _ | ⟨proof', proofs⟩⟩ <;> simp
  | null => simp only [List.length_map, List.zipWith_map_left]
  | simple => simp only [List.length_map, List.zipWith_map_left]

theorem map_blank_expandSpends {s : Confidential.Signature} {images : List Key}
    {rings : List (List Coin)} {spends : List (List Coin) × List Mlsag.Signature}
    (h : expandSpends s images rings = .ok spends) :
    spends.2.map (fun m => { m with images := [] }) =
      s.spendProofs.map fun m => { m with images := [] } := by
  rcases expandSpends_cases h with ⟨-, proof, hproof, rfl⟩ | ⟨-, hlength, rfl⟩
  · rw [hproof]
    rfl
  · refine map_zipWith_of_forall hlength ?_
    intro proof image
    rfl

variable {b : Body} {s s' : Confidential.Signature} {rings : List (List Coin)}

theorem blank_of_expandSignature (h : expandSignature b s rings = .ok s') : s'.blank = s.blank := by
  obtain ⟨images, mixin, spends, -, -, -, -, houtputs, hspends, rfl⟩ :=
    expandSignature_eq_ok_iff.mp h
  have hcoins : (withDestinations s.outputs b.outputs).map
      (fun coin => { coin with destination := .zero }) =
        s.outputs.map fun coin => { coin with destination := .zero } := by
    refine map_zipWith_of_forall houtputs ?_
    intro coin output
    rfl
  simp only [Confidential.Signature.blank, hcoins, map_blank_expandSpends hspends]

theorem expandSignature_blank (h : expandSignature b s rings = .ok s') :
    expandSignature b s.blank rings = .ok s'.forgetSenders := by
  obtain ⟨images, mixin, spends, himages, hmixin, hrings, hsizes, houtputs, hspends, rfl⟩ :=
    expandSignature_eq_ok_iff.mp h
  have hcoins : withDestinations s.blank.outputs b.outputs = withDestinations s.outputs b.outputs :=
    withDestinations_map_blank ..
  refine expandSignature_eq_ok_iff.mpr ⟨images, mixin, spends, himages, hmixin, hrings, hsizes,
    by simpa [Confidential.Signature.blank] using houtputs, ?_, ?_⟩
  · rw [expandSpends_blank, hspends]
  · rw [hcoins]
    rfl

theorem expandSignature_blank_self (h : expandSignature b s rings = .ok s') :
    expandSignature b s'.blank rings = .ok s'.forgetSenders := by
  rw [blank_of_expandSignature h, expandSignature_blank h]

/-! ## Many attempts -/

def tryExpandAll (t : Transaction) (attempts : List (List (List Coin))) : Transaction :=
  attempts.foldl tryExpand t

/-- The rings of the last attempt that succeeds. -/
def lastRings? : Transaction → List (List (List Coin)) → Option (List (List Coin))
  | _, [] => none
  | t, rings :: attempts =>
    (lastRings? (t.tryExpand rings) attempts).or (if (t.expand rings).isOk then some rings else none)

theorem tryExpand_of_isOk_eq_false {t : Transaction} (h : (t.expand rings).isOk = false) :
    t.tryExpand rings = t := by
  rw [tryExpand]
  cases hexpand : t.expand rings with
  | error e => rfl
  | ok t' =>
    rw [hexpand] at h
    cases h

theorem tryExpandAll_of_lastRings?_eq_none {t : Transaction} {attempts : List (List (List Coin))}
    (h : lastRings? t attempts = none) : t.tryExpandAll attempts = t := by
  induction attempts generalizing t with
  | nil => rfl
  | cons rings attempts ih =>
    rw [lastRings?, Option.or_eq_none_iff] at h
    obtain ⟨hrest, hfirst⟩ := h
    have hfailed : t.tryExpand rings = t := by
      refine tryExpand_of_isOk_eq_false (Bool.eq_false_iff.mpr fun hok => ?_)
      rw [if_pos hok] at hfirst
      cases hfirst
    rw [hfailed] at hrest
    rw [tryExpandAll, List.foldl_cons, hfailed]
    exact ih hrest

/-- After any number of attempts the transaction is as the last one that succeeded left it. -/
theorem exists_expand_of_lastRings? {t : Transaction} {attempts : List (List (List Coin))}
    (h : lastRings? t attempts = some rings) :
    ∃ t₀ : Transaction, t₀.expand rings = .ok (t.tryExpandAll attempts) := by
  induction attempts generalizing t with
  | nil => cases h
  | cons first attempts ih =>
    rw [tryExpandAll, List.foldl_cons]
    rw [lastRings?] at h
    cases hrest : lastRings? (t.tryExpand first) attempts with
    | some later =>
      rw [hrest, Option.some_or, Option.some.injEq] at h
      exact ih (h ▸ hrest)
    | none =>
      rw [hrest, Option.none_or] at h
      split at h
      · rename_i hok
        cases h
        obtain ⟨t', ht'⟩ := Except.exists_eq_ok hok
        refine ⟨t, ?_⟩
        have hunchanged := tryExpandAll_of_lastRings?_eq_none hrest
        rw [tryExpandAll] at hunchanged
        rw [hunchanged, tryExpand, ht']
      · cases h

theorem expandSignature_of_lastRings? {start t : Transaction}
    {attempts : List (List (List Coin))} (ht : start.tryExpandAll attempts = t)
    (hlast : lastRings? start attempts = some rings) (hs : t.signatures = .confidential s)
    (hkind : s.kind ≠ .null) :
    t.state = .expanded ∧ expandSignature t.body s.blank rings = .ok s.forgetSenders := by
  obtain ⟨t₀, hexpand⟩ := exists_expand_of_lastRings? hlast
  rw [ht] at hexpand
  rcases expand_cases hexpand with ⟨hall, rfl⟩ | ⟨s₀, s', -, -, hs', rfl⟩
  · exact absurd (hall s hs) hkind
  · cases hs
    exact ⟨rfl, expandSignature_blank_self hs'⟩

theorem checkConfidential_eq_check {C : KeyGroup} {t : Transaction}
    (hs : t.signatures = .confidential s) (hkind : s.kind ≠ .null) (hstate : t.state = .expanded) :
    t.checkConfidential C = Confidential.check C s := by
  simp only [checkConfidential, hs, if_neg hkind, hstate, ne_eq, not_true, if_false]

/-- Two transactions that are the same on the wire and were last expanded with the same rings are
decided about alike, and the same was filled in, whatever they were made with and whatever was
attempted before and after. -/
theorem verifyConfidential_eq_of_blank_eq {C : KeyGroup} {start₁ start₂ t₁ t₂ : Transaction}
    {s₁ s₂ : Confidential.Signature} {attempts₁ attempts₂ : List (List (List Coin))}
    (ht₁ : start₁.tryExpandAll attempts₁ = t₁) (ht₂ : start₂.tryExpandAll attempts₂ = t₂)
    (hlast₁ : lastRings? start₁ attempts₁ = some rings)
    (hlast₂ : lastRings? start₂ attempts₂ = some rings)
    (hs₁ : t₁.signatures = .confidential s₁) (hs₂ : t₂.signatures = .confidential s₂)
    (hkind : s₁.kind ≠ .null) (hbody : t₁.body = t₂.body) (hwire : s₁.blank = s₂.blank) :
    t₁.verifyConfidential C = t₂.verifyConfidential C ∧ s₁.message = s₂.message ∧
      s₁.rings = s₂.rings ∧ s₁.outputs = s₂.outputs ∧
        s₁.spendProofs.map (·.images) = s₂.spendProofs.map (·.images) := by
  have hkind₂ : s₂.kind ≠ .null := by
    obtain ⟨hkinds, -⟩ := Confidential.Signature.mk.inj hwire
    rwa [← hkinds]
  obtain ⟨hstate₁, hfilled₁⟩ := expandSignature_of_lastRings? ht₁ hlast₁ hs₁ hkind
  obtain ⟨hstate₂, hfilled₂⟩ := expandSignature_of_lastRings? ht₂ hlast₂ hs₂ hkind₂
  have hforget : s₁.forgetSenders = s₂.forgetSenders := by
    rw [hbody, hwire, hfilled₂] at hfilled₁
    exact (Except.ok.inj hfilled₁).symm
  have hcheck : t₁.checkConfidential C = t₂.checkConfidential C := by
    rw [checkConfidential_eq_check hs₁ hkind hstate₁, checkConfidential_eq_check hs₂ hkind₂ hstate₂,
      ← Confidential.check_forgetSenders, hforget, Confidential.check_forgetSenders]
  obtain ⟨-, hmessage, hrings, -, -, houtputs, -, -, hspends⟩ :=
    Confidential.Signature.mk.inj hforget
  exact ⟨by rw [verifyConfidential, hcheck, verifyConfidential], hmessage, hrings, houtputs,
    by rw [hspends]⟩

def pairRead : Transaction := ⟨pairBody, .confidential pairSignature.blank, .parsed⟩

/-- The same transaction, made with a wrong message, key image and destination, without rings and
with a sender's key. -/
def pairMade : Transaction where
  body := pairBody
  signatures := .confidential { pairSignature with
    message := .zero
    rings := []
    maskedAmounts := [⟨.replicate 32 4, .replicate 32 5, .replicate 32 8⟩]
    outputs := [⟨.replicate 32 9, .replicate 32 6⟩]
    spendProofs := [⟨[[.zero, .zero, .zero], [.zero, .zero, .zero]], .replicate 32 7,
      [.replicate 32 10]⟩] }
  state := .parsed

/-- Expanded once as it was read, or as it was made first with the wrong rings, then with the right
ones and then, in vain, with none, the transaction gets one answer. -/
theorem verifyConfidential_eq_of_blank_eq_pair :
    (pairRead.tryExpandAll [pairRings]).verifyConfidential Edwards.group =
      (pairMade.tryExpandAll [pairRings.reverse, pairRings, []]).verifyConfidential Edwards.group := by
  have hread : lastRings? pairRead [pairRings] = some pairRings := rfl
  have hmade : lastRings? pairMade [pairRings.reverse, pairRings, []] = some pairRings := rfl
  have hs : (pairRead.tryExpandAll [pairRings]).signatures = .confidential pairSignature := rfl
  have hs' : (pairMade.tryExpandAll [pairRings.reverse, pairRings, []]).signatures =
    .confidential { pairSignature with
      maskedAmounts := [⟨.replicate 32 4, .replicate 32 5, .replicate 32 8⟩] } := rfl
  exact (verifyConfidential_eq_of_blank_eq rfl rfl hread hmade hs hs' (by decide) rfl rfl).1

end Transaction
end ConfidentialTx
