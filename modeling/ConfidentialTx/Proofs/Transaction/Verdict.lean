import ConfidentialTx.Edwards.Group
import ConfidentialTx.Proofs.Confidential.Acceptance
import ConfidentialTx.Proofs.Transaction.Expansion
import ConfidentialTx.Proofs.Transaction.WireFormat
import ConfidentialTx.Transaction.Verification

/-! Verdicts about transactions that were read and expanded. Verification fails in one case only:
no ring member is there, and all that does not need one is in order. A full signature over empty
rings and a simple one over no inputs are then called unexpanded. -/
namespace ConfidentialTx

namespace Confidential

variable {C : KeyGroup}

/-- Rings, key images and spend proofs are as many as the inputs. -/
def Signature.Matches (s : Signature) (inputs : ℕ) : Prop :=
  match s.kind with
  | .null => False
  | .full => (∃ proof, s.spendProofs = [proof] ∧ proof.images.length = inputs) ∧
      ∀ coins ∈ s.rings, coins.length = inputs
  | .simple => s.rings.length = inputs ∧ s.pseudoOutputs.length = inputs ∧
      s.spendProofs.length = inputs

theorem withMatrix_ok {reject : String → Rejection} {matrix : Except Error (List (List Key))}
    {decide : List (List Key) → Except Error Verdict}
    (hmatrix : Except.FailsWith Mlsag.IsPointError matrix)
    (hdecide : ∀ m, matrix = .ok m → ∃ v, decide m = .ok v) :
    ∃ v, withMatrix reject matrix decide = .ok v := by
  cases hm : matrix with
  | ok m => exact hdecide m hm
  | error e =>
    obtain ⟨field, rfl⟩ := hmatrix e hm
    exact ⟨.error (reject field), rfl⟩

theorem checkSpendsFrom_ok (message : Key) (i : ℕ) (rings : List (List Coin)) (pseudos : List Key)
    (proofs : List Mlsag.Signature) : ∃ v, checkSpendsFrom C message i rings pseudos proofs = .ok v := by
  induction rings generalizing i pseudos proofs with
  | nil => exact ⟨_, rfl⟩
  | cons ring rings ih =>
    cases pseudos with
    | nil => exact ⟨_, rfl⟩
    | cons pseudo pseudos =>
      cases proofs with
      | nil => exact ⟨_, rfl⟩
      | cons proof proofs =>
        refine withMatrix_ok (Mlsag.simpleMatrix_failsWith ring pseudo) fun m _ => ?_
        cases Mlsag.check C message m proof 1 with
        | error cause => exact ⟨_, rfl⟩
        | ok u => exact ih (i + 1) pseudos proofs

theorem length_headD_fullMatrix {rings : List (List Coin)} {outputs : List Coin} {fee : UInt64}
    {m : List (List Key)} {inputs : ℕ} (hrings : rings ≠ [])
    (hlength : ∀ coins ∈ rings, coins.length = inputs)
    (hm : Mlsag.fullMatrix C rings outputs fee = .ok m) : (m.headD []).length - 1 = inputs := by
  obtain ⟨column, rest, rfl, hcolumn⟩ := Mlsag.exists_cons_of_fullMatrix hrings hm
  rw [List.headD_cons, hcolumn, Nat.add_sub_cancel]
  exact length_headD_of_forall hrings hlength

theorem checkFullSpend_ok {s : Signature} {proof : Mlsag.Signature}
    (hproof : s.spendProofs = [proof]) (hrings : s.rings ≠ [])
    (hlength : ∀ coins ∈ s.rings, coins.length = proof.images.length) :
    ∃ v, checkFullSpend C s = .ok v := by
  have hhead : ∀ coins ∈ s.rings, coins.length = (s.rings.headD []).length := by
    intro coins hcoins
    rw [hlength coins hcoins, length_headD_of_forall hrings hlength]
  rw [checkFullSpend, hproof]
  refine withMatrix_ok (Mlsag.fullMatrix_failsWith s.outputs s.fee hhead) fun m hm => ?_
  have hlinkable := length_headD_fullMatrix hrings hlength hm
  exact ⟨_, if_neg (not_not.mpr hlinkable.symm)⟩

/-- A signature that matches its inputs gets no verdict only if rings or key images are missing. -/
theorem check_eq_error_iff {s : Signature} {inputs : ℕ} (h : s.Matches inputs) (e : Error) :
    check C s = .error e ↔
      e = .notExpanded ∧ s.isBare = true ∧ checkAmounts C s = .ok () := by
  have hspends : s.isBare = false → ∃ v, checkSpends C s = .ok v := by
    intro hbare
    rw [checkSpends]
    rw [Signature.Matches] at h
    cases hkind : s.kind with
    | null => exact ⟨_, rfl⟩
    | full =>
      rw [hkind] at h
      obtain ⟨⟨proof, hproof, rfl⟩, hlength⟩ := h
      simpa [hbare] using checkFullSpend_ok hproof (isBare_eq_false_iff.mp hbare).1 hlength
    | simple =>
      rw [hkind] at h
      obtain ⟨hrings, hpseudos, hproofs⟩ := h
      simp only [hbare, Bool.false_eq_true, if_false]
      rw [checkSimpleSpends, if_neg (by omega), if_neg (by omega)]
      exact checkSpendsFrom_ok ..
  have hmissing : s.isBare = true → checkSpends C s = .error .notExpanded := by
    intro hbare
    rw [checkSpends]
    rw [Signature.Matches] at h
    cases hkind : s.kind with
    | null =>
      rw [hkind] at h
      exact h.elim
    | full => simp [hbare]
    | simple => simp [hbare]
  rw [check]
  rcases checkAmounts C s with r | ⟨⟩
  · simp
  · cases hbare : s.isBare with
    | false =>
      obtain ⟨v, hv⟩ := hspends hbare
      simp [hv]
    | true => simp [hmissing hbare, eq_comm]

end Confidential

namespace Transaction

open Wire Wire.Parser

/-- No ring member is there to verify the spends of these inputs against. -/
def Ringless (inputs : List Input) (s : Confidential.Signature) : Prop :=
  match s.kind with
  | .null => False
  | .full => ∀ i ∈ inputs, i.ringSize = 0
  | .simple => inputs = []

theorem wireShaped_of_parse {limits : Limits} {bytes : List UInt8} {t : Transaction}
    (h : parse limits bytes = .ok t) : t.signatures.WireShaped t.body := by
  rw [parse, run_eq_ok_iff] at h
  simp only [parser, bind_eq_ok_iff, pure_eq_ok_iff, bodyParser_reads _ _ _ _] at h
  obtain ⟨r, b, m, ⟨hbody, -⟩, s, m', hs, u, m'', -, rfl, -⟩ := h
  exact ((signaturesParser_reads hbody _ _ _).mp hs).1

variable {b : Body} {s s' : Confidential.Signature} {rings : List (List Coin)} {outputs columns : ℕ}

theorem length_of_keyImages {inputs : List Input} {images : List Key}
    (h : keyImages inputs = .ok images) : images.length = inputs.length := by
  simpa using (congrArg List.length (keyImages_eq_ok_iff.mp h)).symm

theorem matches_of_expandSignature (hshape : s.HasShape b.inputs.length outputs columns)
    (h : expandSignature b s rings = .ok s') : s'.Matches b.inputs.length := by
  obtain ⟨images, mixin, spends, himages, -, hcount, -, -, hspends, rfl⟩ :=
    expandSignature_eq_ok_iff.mp h
  have hlength := length_of_keyImages himages
  have hlists := hshape.spends
  rw [Confidential.Signature.Matches]
  rw [expandSpends] at hspends
  cases hkind : s.kind with
  | null => exact absurd hkind hshape.kind_ne
  | full =>
    rw [hkind] at hspends
    simp only at hspends
    split at hspends
    · cases hspends
      refine ⟨⟨_, rfl, hlength⟩, ?_⟩
      simp [byMember, hcount]
    · cases hspends
  | simple =>
    rw [hkind] at hspends hlists
    simp only at hspends
    split at hspends
    · cases hspends
    · rename_i hproofs
      cases hspends
      exact ⟨hcount, hlists.1, by simp [not_not.mp hproofs, hlength]⟩

theorem length_headD_rings {inputs : List Input}
    (hspend : ∀ i ∈ inputs, i.keyImage?.isSome = true)
    (h : List.Forall₂ (fun i ring => ring.length = i.ringSize) inputs rings) :
    (rings.headD []).length = ringSize inputs := by
  cases h with
  | nil => rfl
  | cons hring _ => rw [ringSize_cons (hspend _ (List.mem_cons_self ..)), List.headD_cons, hring]

theorem ringSize_eq_zero_iff {inputs : List Input}
    (hspend : ∀ i ∈ inputs, i.keyImage?.isSome = true) (huniform : UniformRings inputs) :
    ringSize inputs = 0 ↔ ∀ i ∈ inputs, i.ringSize = 0 := by
  constructor
  · intro h i hi
    rw [huniform i hi (hspend i hi), h]
  · intro h
    cases inputs with
    | nil => rfl
    | cons i inputs =>
      rw [ringSize_cons (hspend i (List.mem_cons_self ..)), h i (List.mem_cons_self ..)]

theorem images_ne_nil_of_mem_zipWith (proofs : List Mlsag.Signature) (images : List Key) :
    ∀ proof ∈ List.zipWith (fun (proof : Mlsag.Signature) image => { proof with images := [image] })
      proofs images, proof.images ≠ [] := by
  intro proof hproof
  obtain ⟨j, hj, rfl⟩ := List.mem_iff_getElem.mp hproof
  simp

/-- Rings or key images of an expanded signature are missing only where the inputs have no ring
members. -/
theorem isBare_of_expandSignature (hkind : s.kind ≠ .null)
    (h : expandSignature b s rings = .ok s') : s'.isBare = true ↔ Ringless b.inputs s' := by
  obtain ⟨images, mixin, spends, himages, hmixin, hcount, hsizes, -, hspends, rfl⟩ :=
    expandSignature_eq_ok_iff.mp h
  have hspend := isSome_of_map_keyImage? (keyImages_eq_ok_iff.mp himages)
  have hlength := length_of_keyImages himages
  have huniform := (uniformMixin_eq_ok_iff.mp hmixin).1
  have hhead := length_headD_rings hspend ((checkRings_eq_ok_iff hcount).mp hsizes)
  have hzero := ringSize_eq_zero_iff hspend huniform
  rw [expandSpends] at hspends
  rw [Ringless]
  cases hk : s.kind with
  | null => exact absurd hk hkind
  | full =>
    rw [hk] at hspends
    simp only at hspends
    split at hspends
    · cases hspends
      have himagesNil : images = [] → ∀ i ∈ b.inputs, i.ringSize = 0 := by
        rintro rfl
        simp [List.length_eq_zero_iff.mp hlength.symm]
      simp only [Confidential.Signature.isBare, byMember, hhead, List.isEmpty_iff, List.any_cons,
        List.any_nil, Bool.or_false, Bool.or_eq_true, List.map_eq_nil_iff, List.range_eq_nil,
        hzero]
      exact ⟨fun h => h.elim id himagesNil, .inl⟩
    · cases hspends
  | simple =>
    rw [hk] at hspends
    simp only at hspends
    split at hspends
    · cases hspends
    · cases hspends
      have hfilled := images_ne_nil_of_mem_zipWith s.spendProofs images
      have hempty : rings = [] ↔ b.inputs = [] := by
        rw [← List.length_eq_zero_iff, hcount, List.length_eq_zero_iff]
      rw [← Bool.not_eq_false, Confidential.isBare_eq_false_iff, ← hempty]
      exact ⟨fun h => not_not.mp fun hne => h ⟨hne, hfilled⟩, fun h hall => hall.1 h⟩

theorem map_eq_error_iff {α β : Type} {f : α → β} {x : Except Error α} {e : Error} :
    x.map f = .error e ↔ x = .error e := by
  cases x <;> simp [Except.map]

variable {C : KeyGroup}

/-- A transaction that was read and expanded gets a verdict, unless it has hidden amounts and no ring
member while its amounts are in order. -/
theorem verifyConfidential_eq_error_iff {limits : Limits} {bytes : List UInt8} {t t' : Transaction}
    {rings : List (List Coin)} (hparse : parse limits bytes = .ok t) (hversion : 2 ≤ t.body.version)
    (hexpand : t.expand rings = .ok t') (e : Error) : t'.verifyConfidential C = .error e ↔
      e = .notExpanded ∧ ∃ s, t'.confidential? = some s ∧ Ringless t.body.inputs s ∧
        Confidential.checkAmounts C s = .ok () := by
  have hwire := wireShaped_of_parse hparse
  rcases expand_cases hexpand with ⟨hnull, rfl⟩ | ⟨s, s', hs, hkind, hs', rfl⟩
  · cases hs : t.signatures with
    | ring signatures =>
      rw [hs] at hwire
      rw [hwire.1] at hversion
      exact absurd hversion (by decide)
    | confidential s =>
      have hkind := hnull s hs
      simp [verifyConfidential, checkConfidential, confidential?, hkind, Ringless, Except.map]
  · rw [hs] at hwire
    have hshape := (hwire.2.2.resolve_left fun h => hkind (by rw [h]; rfl)).1
    have hmatches := matches_of_expandSignature hshape hs'
    have hkind' : s'.kind ≠ .null := by
      intro h
      rw [Confidential.Signature.Matches, h] at hmatches
      exact hmatches
    rw [verifyConfidential, map_eq_error_iff]
    simp only [checkConfidential, confidential?, if_neg hkind', ne_eq, not_true, if_false,
      Confidential.check_eq_error_iff hmatches, isBare_of_expandSignature hkind hs',
      Option.some.injEq, exists_eq_left']

/-- The bytes of a transaction without inputs and outputs that carries a simple signature. -/
def emptyBytes : List UInt8 := [2, 0, 0, 0, 0, 2, 0]

def emptySimple : Transaction :=
  ⟨⟨2, 0, [], [], []⟩, .confidential { Confidential.Signature.null with kind := .simple }, .parsed⟩

theorem parse_emptyBytes : parse .standard emptyBytes = .ok emptySimple := by
  decide +kernel

def emptyExpanded : Transaction :=
  ⟨⟨2, 0, [], [], []⟩, .confidential { Confidential.Signature.null with
    kind := .simple
    message := Body.hash ⟨2, 0, [], [], []⟩ }, .expanded⟩

theorem expand_emptySimple : emptySimple.expand [] = .ok emptyExpanded := rfl

/-- The empty transaction was expanded and gets no verdict. -/
theorem verifyConfidential_emptyExpanded :
    emptyExpanded.verifyConfidential Edwards.group = .error .notExpanded := by
  refine (verifyConfidential_eq_error_iff parse_emptyBytes (by decide) expand_emptySimple _).mpr
    ⟨rfl, _, rfl, rfl, ?_⟩
  decide +kernel

/-- Some transaction was read and expanded and gets no verdict. -/
theorem exists_expanded_not_verified : ∃ (limits : Limits) (bytes : List UInt8)
    (rings : List (List Coin)) (C : KeyGroup) (t t' : Transaction) (e : Error),
    parse limits bytes = .ok t ∧ 2 ≤ t.body.version ∧ t.expand rings = .ok t' ∧
      t'.verifyConfidential C = .error e := by
  refine ⟨.standard, emptyBytes, [], Edwards.group, emptySimple, emptyExpanded, .notExpanded,
    parse_emptyBytes, by decide, expand_emptySimple, ?_⟩
  decide +kernel

end Transaction
end ConfidentialTx
