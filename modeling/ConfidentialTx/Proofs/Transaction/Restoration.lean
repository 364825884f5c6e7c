import ConfidentialTx.Proofs.Transaction.Expansion
import ConfidentialTx.Proofs.Transaction.WireFormat

/-! What the wire leaves out comes back. A transaction that is written, read and expanded with the
rings of its inputs has the signature that it had before it was written. -/
namespace ConfidentialTx

namespace Confidential.Signature

/-- A signature without what is not written. -/
def blank (s : Signature) : Signature :=
  { s with
    message := .zero
    rings := []
    maskedAmounts := s.maskedAmounts.map fun m => { m with senderKey := .zero }
    outputs := s.outputs.map fun coin => { coin with destination := .zero }
    spendProofs := s.spendProofs.map fun m => { m with images := [] } }

theorem isBlank_blank (s : Signature) : s.blank.IsBlank where
  message := rfl
  rings := rfl
  senders := by simp [blank]
  destinations := by simp [blank]
  images := by simp [blank]

theorem toBytes_blank (s : Signature) : s.blank.toBytes = s.toBytes := by
  have hspend : ∀ m : Mlsag.Signature, spendBytes { m with images := [] } = spendBytes m :=
    fun _ => rfl
  simp only [toBytes, baseBytes, prunableBytes, rangeBytes, blank, List.flatMap_map, hspend]

theorem baseHash_blank (s : Signature) : s.blank.baseHash = s.baseHash := by
  simp only [baseHash, baseBytes, blank, List.flatMap_map]

theorem prunableHash_blank (s : Signature) : s.blank.prunableHash = s.prunableHash := by
  have hspend : ∀ m : Mlsag.Signature, spendBytes { m with images := [] } = spendBytes m :=
    fun _ => rfl
  simp only [prunableHash, prunableBytes, rangeBytes, blank, List.flatMap_map, hspend]

theorem HasShape.blank {s : Signature} {inputs outputs columns : ℕ}
    (h : s.HasShape inputs outputs columns) : s.blank.HasShape inputs outputs columns := by
  obtain ⟨hpseudos, hmasked, houtputs, hranges, hcount, hproofs⟩ := (hasShape_iff h.kind_ne).mp h
  have hkind : s.blank.kind ≠ .null := h.kind_ne
  refine (hasShape_iff hkind).mpr ⟨hpseudos, by simpa [Signature.blank] using hmasked,
    by simpa [Signature.blank] using houtputs, hranges, by simpa [Signature.blank] using hcount, ?_⟩
  intro m hm
  obtain ⟨m', hm', rfl⟩ := List.mem_map.mp hm
  exact ⟨(hproofs m' hm').columns_eq, (hproofs m' hm').rows_eq⟩

end Confidential.Signature

namespace Transaction

open Wire Wire.Parser Wire.Reader

/-- What was written for a transaction that is as on the wire is read as that transaction. -/
theorem parse_toBytes {limits : Limits} {t : Transaction} (hstate : t.state = .parsed)
    (h : t.WireShaped limits) : parse limits t.toBytes = .ok t := by
  have hall : (Reader.ofBytes t.toBytes).Passes t.toBytes ⟨t.toBytes.length, []⟩ := by
    simp [Reader.ofBytes, Passes]
  obtain ⟨m, hbody, hsignatures⟩ := passes_append_iff.mp hall
  rw [parse, run_eq_ok_iff]
  simp only [parser, bind_eq_ok_iff, pure_eq_ok_iff, finish_eq_ok_iff, bodyParser_reads _ _ _ _]
  refine ⟨_, t.body, m, ⟨h.body, hbody⟩, t.signatures, _,
    (signaturesParser_reads h.body _ _ _).mpr ⟨h.signatures, hsignatures⟩, (), _, ⟨rfl, rfl⟩, ?_, rfl⟩
  rw [← hstate]

/-- One list has in row `i` and column `j` what the other has in row `j` and column `i`. -/
structure Transposed (rows columns : List (List Coin)) (width : ℕ) : Prop where
  length_columns : columns.length = width
  length_column : ∀ column ∈ columns, column.length = rows.length
  entry : ∀ i j : ℕ, columns[i]?.bind (·[j]?) = rows[j]?.bind (·[i]?)

/-- The fields of a signature that are not written are what the body, the key images of its inputs
and their rings of `size` members ask for. -/
structure Fits (b : Body) (images : List Key) (rings : List (List Coin)) (size : ℕ)
    (s : Confidential.Signature) : Prop where
  message : s.message = b.hash
  senders : ∀ m ∈ s.maskedAmounts, m.senderKey = .zero
  destinations : s.outputs.map (·.destination) = b.outputs.map (·.key)
  images : s.spendProofs.map (·.images) =
    if s.kind = .full then [images] else images.map fun image => [image]
  rings : if s.kind = .full then Transposed rings s.rings size else s.rings = rings

theorem byMember_eq {rings columns : List (List Coin)} {size : ℕ}
    (hrings : ∀ ring ∈ rings, ring.length = size) (h : Transposed rings columns size) :
    byMember size rings = columns := by
  refine List.ext_getElem (by simp [byMember, h.length_columns]) fun i hi hi' => ?_
  have hlength := h.length_column _ (List.getElem_mem hi')
  refine List.ext_getElem (by simp [byMember, hlength]) fun j hj hj' => ?_
  have hsize : i < size := by simpa [byMember] using hi
  have hrow : j < rings.length := by rwa [← hlength]
  have hmember : i < rings[j].length := by rwa [hrings _ (List.getElem_mem hrow)]
  have hentry := h.entry i j
  rw [List.getElem?_eq_getElem hi', List.getElem?_eq_getElem hrow, Option.bind_some,
    Option.bind_some, List.getElem?_eq_getElem hj', List.getElem?_eq_getElem hmember,
    Option.some.injEq] at hentry
  simp [byMember, hentry, List.getD_eq_getElem?_getD, List.getElem?_eq_getElem hmember]

theorem zipWith_blank {proofs : List Mlsag.Signature} {images : List Key}
    (h : proofs.map (·.images) = images.map fun image => [image]) :
    List.zipWith (fun proof image => { proof with images := [image] })
      (proofs.map fun m => { m with images := [] }) images = proofs := by
  induction proofs generalizing images with
  | nil => simp
  | cons proof proofs ih =>
    cases images with
    | nil => cases h
    | cons image images =>
      rw [List.map_cons, List.map_cons, List.cons.injEq] at h
      rw [List.map_cons, List.zipWith_cons_cons, ih h.2, ← h.1]

theorem withDestinations_blank {coins : List Coin} {outputs : List Output}
    (h : coins.map (·.destination) = outputs.map (·.key)) :
    withDestinations (coins.map fun coin => { coin with destination := .zero }) outputs = coins := by
  induction coins generalizing outputs with
  | nil => rfl
  | cons coin coins ih =>
    cases outputs with
    | nil => cases h
    | cons output outputs =>
      have hcoin : coin.destination = output.key := (List.cons.inj h).1
      have hrest := ih (List.cons.inj h).2
      rw [withDestinations] at hrest
      rw [List.map_cons, withDestinations, List.zipWith_cons_cons, hrest, ← hcoin]

variable {b : Body} {images : List Key} {rings : List (List Coin)} {size : ℕ}
  {s : Confidential.Signature}

theorem Fits.expandSpends_blank (h : Fits b images rings size s) (hrings : rings ≠ [])
    (hsize : ∀ ring ∈ rings, ring.length = size) :
    expandSpends s.blank images rings = .ok (s.rings, s.spendProofs) := by
  have himages := h.images
  have hfilled := h.rings
  have hkind : s.blank.kind = s.kind := rfl
  by_cases hfull : s.kind = .full
  · rw [if_pos hfull] at himages hfilled
    obtain ⟨proof, hproofs, rfl⟩ := List.map_eq_singleton_iff.mp himages
    have hblank : s.blank.spendProofs = [{ proof with images := [] }] := by
      rw [Confidential.Signature.blank, hproofs, List.map_singleton]
    have hhead := length_headD_of_forall hrings hsize
    simp only [expandSpends, hkind, hfull, hblank, hhead, byMember_eq hsize hfilled, hproofs]
  · rw [if_neg hfull] at himages hfilled
    have hblank : s.blank.spendProofs = s.spendProofs.map fun m => { m with images := [] } := rfl
    have hlength : s.spendProofs.length = images.length := by
      simpa using congrArg List.length himages
    rw [expandSpends]
    split
    · rename_i hk
      exact absurd (hkind ▸ hk) hfull
    · rw [if_neg (by simpa [hblank] using hlength), hblank, zipWith_blank himages, hfilled]

theorem ringSize_eq_of_forall (himages : b.inputs.map Input.keyImage? = images.map some)
    (hinputs : b.inputs ≠ []) (hsize : ∀ i ∈ b.inputs, i.ringSize = size) :
    ringSize b.inputs = size := by
  have hspend := isSome_of_map_keyImage? himages
  cases hb : b.inputs with
  | nil => exact absurd hb hinputs
  | cons i inputs =>
    have hi : i ∈ b.inputs := by simp [hb]
    rw [ringSize_cons (hspend i hi), hsize i hi]

theorem Fits.expandSignature_blank (h : Fits b images rings size s)
    (himages : b.inputs.map Input.keyImage? = images.map some) (hinputs : b.inputs ≠ [])
    (hinputSize : ∀ i ∈ b.inputs, i.ringSize = size) (hcount : rings.length = b.inputs.length)
    (hsize : ∀ ring ∈ rings, ring.length = size) :
    expandSignature b s.blank rings = .ok s := by
  have huniform : UniformRings b.inputs := by
    intro i hi _
    rw [hinputSize i hi, ringSize_eq_of_forall himages hinputs hinputSize]
  have hrings : rings ≠ [] := by
    rintro rfl
    exact hinputs (List.length_eq_zero_iff.mp hcount.symm)
  have hsizes : List.Forall₂ (fun i ring => ring.length = i.ringSize) b.inputs rings := by
    refine List.forall₂_iff_get.mpr ⟨hcount.symm, fun i h₁ h₂ => ?_⟩
    rw [hsize _ (List.get_mem ..), hinputSize _ (List.get_mem ..)]
  have houtputs : s.blank.outputs.length = b.outputs.length := by
    simpa [Confidential.Signature.blank] using congrArg List.length h.destinations
  have hmasked : s.blank.maskedAmounts = s.maskedAmounts := by
    refine (List.map_congr_left fun m hm => ?_).trans (List.map_id _)
    rw [← h.senders m hm, id]
  have hfilled : withDestinations s.blank.outputs b.outputs = s.outputs :=
    withDestinations_blank h.destinations
  rw [expandSignature_eq_ok_iff]
  refine ⟨images, _, (s.rings, s.spendProofs), keyImages_eq_ok_iff.mpr himages,
    uniformMixin_eq_ok_iff.mpr ⟨huniform, rfl⟩, hcount, (checkRings_eq_ok_iff hcount).mpr hsizes,
    houtputs, h.expandSpends_blank hrings hsize, ?_⟩
  rw [hfilled, hmasked, ← h.message]
  rfl

/-- A transaction that is written, read and expanded is again the one that it was made as, but for
its state. -/
theorem expand_parse_toBytes {limits : Limits} (hversion : 2 ≤ b.version) (hinputs : b.inputs ≠ [])
    (himages : b.inputs.map Input.keyImage? = images.map some)
    (hinputSize : ∀ i ∈ b.inputs, i.ringSize = size) (hpos : 1 ≤ size) (hwithin : b.Within limits)
    (hcount : rings.length = b.inputs.length) (hsize : ∀ ring ∈ rings, ring.length = size)
    (hshape : s.HasShape b.inputs.length b.outputs.length size) (hfits : Fits b images rings size s) :
    ∃ t, ofConfidential b s = .ok t ∧ ∃ read, parse limits t.toBytes = .ok read ∧
      ∃ t', read.expand rings = .ok t' ∧ t'.state = .expanded ∧ t'.body = b ∧
        t'.confidential? = some s ∧ t'.hash = t.hash := by
  have hsizeEq := ringSize_eq_of_forall himages hinputs hinputSize
  have huniform : UniformRings b.inputs := fun i hi _ => by rw [hinputSize i hi, hsizeEq]
  have hmade : ofConfidential b s = .ok ⟨b, .confidential s, .parsed⟩ := by
    have hversion' : ¬ b.version < 2 := UInt64.not_lt.mpr hversion
    rw [ofConfidential, if_neg hversion', if_neg hshape.kind_ne,
      if_neg (not_not.mpr hshape.length_outputs), uniformMixin_eq_ok_iff.mpr ⟨huniform, rfl⟩]
    rfl
  have hread : parse limits (Transaction.toBytes ⟨b, .confidential s, .parsed⟩) =
      .ok ⟨b, .confidential s.blank, .parsed⟩ := by
    have hwire : s.blank.WireShaped b.inputs.length b.outputs.length (max (ringSize b.inputs) 1) := by
      rw [hsizeEq, max_eq_left hpos]
      exact .inr ⟨hshape.blank, s.isBlank_blank⟩
    have hbytes : Transaction.toBytes ⟨b, .confidential s.blank, .parsed⟩ =
        Transaction.toBytes ⟨b, .confidential s, .parsed⟩ := by
      simp only [toBytes, Signatures.toBytes, s.toBytes_blank]
    rw [← hbytes]
    exact parse_toBytes rfl ⟨hwithin, hversion, huniform, hwire⟩
  have hexpanded : expand ⟨b, .confidential s.blank, .parsed⟩ rings =
      .ok ⟨b, .confidential s, .expanded⟩ := by
    have hkind : s.blank.kind ≠ .null := hshape.kind_ne
    simp only [expand, if_neg hkind]
    rw [hfits.expandSignature_blank himages hinputs hinputSize hcount hsize]
    rfl
  exact ⟨_, hmade, _, hread, _, hexpanded, rfl, rfl, rfl, rfl⟩

/-- Two inputs with rings of two members, and one output. -/
def pairBody : Body :=
  ⟨2, 0, [.spend 0 [5, 1] (.replicate 32 1), .spend 0 [7, 3] (.replicate 32 2)],
    [⟨0, .replicate 32 3⟩], [9]⟩

def pairRings : List (List Coin) :=
  [[⟨.replicate 32 11, .replicate 32 12⟩, ⟨.replicate 32 13, .replicate 32 14⟩],
    [⟨.replicate 32 21, .replicate 32 22⟩, ⟨.replicate 32 23, .replicate 32 24⟩]]

/-- A full signature for them, whose rings are listed by member. -/
def pairSignature : Confidential.Signature where
  kind := .full
  message := pairBody.hash
  rings := [[⟨.replicate 32 11, .replicate 32 12⟩, ⟨.replicate 32 21, .replicate 32 22⟩],
    [⟨.replicate 32 13, .replicate 32 14⟩, ⟨.replicate 32 23, .replicate 32 24⟩]]
  pseudoOutputs := []
  maskedAmounts := [⟨.replicate 32 4, .replicate 32 5, .zero⟩]
  outputs := [⟨.replicate 32 3, .replicate 32 6⟩]
  fee := 1000
  rangeProofs := [default]
  spendProofs := [⟨[[.zero, .zero, .zero], [.zero, .zero, .zero]], .replicate 32 7,
    [.replicate 32 1, .replicate 32 2]⟩]

theorem fits_pairSignature :
    Fits pairBody [.replicate 32 1, .replicate 32 2] pairRings 2 pairSignature where
  message := rfl
  senders := by simp [pairSignature]
  destinations := rfl
  images := rfl
  rings := by
    refine ⟨rfl, by simp [pairSignature, pairRings], ?_⟩
    rintro (_ | _ | i) (_ | _ | j) <;> simp [pairSignature, pairRings]

theorem within_pairBody : pairBody.Within .standard := by
  refine ⟨by decide, ?_, by decide, by decide⟩
  simp [pairBody, Input.Within, Limits.standard]

theorem hasShape_pairSignature : pairSignature.HasShape 2 1 2 := by
  refine ⟨rfl, rfl, rfl, rfl, rfl, ?_⟩
  simp only [pairSignature, List.mem_singleton, forall_eq]
  exact ⟨rfl, by simp⟩

/-- The full signature of two inputs comes back from the wire. -/
theorem expand_parse_toBytes_pair : ∃ t, ofConfidential pairBody pairSignature = .ok t ∧
    ∃ read, parse .standard t.toBytes = .ok read ∧ ∃ t', read.expand pairRings = .ok t' ∧
      t'.state = .expanded ∧ t'.body = pairBody ∧ t'.confidential? = some pairSignature ∧
        t'.hash = t.hash := by
  exact expand_parse_toBytes (by decide) (by decide) rfl (by decide) (by decide) within_pairBody rfl
    (by decide) hasShape_pairSignature fits_pairSignature

end Transaction
end ConfidentialTx
