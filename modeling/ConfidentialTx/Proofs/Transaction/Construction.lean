import ConfidentialTx.Proofs.Transaction.Identity
import ConfidentialTx.Proofs.Transaction.Representation

/-! Putting together and reading back. What is written of a transaction that was put together from a
body and a confidential signature is read again only if the rings of the body have one size, also where
no amounts are hidden, and if spend proofs have at least one column. -/
namespace ConfidentialTx

namespace Confidential.Signature

open Wire

variable {s s' : Signature} {inputs outputs columns columns' : ℕ}

/-- What is written of a signature. Pseudo outputs are written only if there is one for each input. -/
def written (s : Signature) : Signature :=
  { s.blank with pseudoOutputs := if s.kind = .simple then s.pseudoOutputs else [] }

theorem isBlank_written (s : Signature) : s.written.IsBlank :=
  ⟨s.isBlank_blank.message, s.isBlank_blank.rings, s.isBlank_blank.senders,
    s.isBlank_blank.destinations, s.isBlank_blank.images⟩

theorem toBytes_written (s : Signature) : s.written.toBytes = s.toBytes := by
  have hkind : s.blank.kind = s.kind := rfl
  rw [← s.toBytes_blank]
  simp only [written, toBytes, baseBytes, prunableBytes, rangeBytes, hkind]
  cases s.kind <;> rfl

theorem kind_eq_of_toBytes_eq (h : s.toBytes = s'.toBytes) : s.kind = s'.kind :=
  Kind.eq_of_tag_eq (List.cons.inj h).1

theorem HasShape.of_spendProofs_eq_nil (h : s.HasShape inputs outputs columns)
    (hnil : s.spendProofs = []) : s.HasShape inputs outputs columns' := by
  obtain ⟨hpseudos, hmasked, houtputs, hranges, hcount, -⟩ := (hasShape_iff h.kind_ne).mp h
  refine (hasShape_iff h.kind_ne).mpr ⟨hpseudos, hmasked, houtputs, hranges, hcount, ?_⟩
  rw [hnil]
  exact fun m hm => absurd hm List.not_mem_nil

/-- The length of what is written tells the number of columns, if there is any spend proof. -/
theorem HasShape.columns_eq (h : s.HasShape inputs outputs columns)
    (h' : s'.HasShape inputs outputs columns') (hbytes : s.toBytes = s'.toBytes) :
    s.spendProofs = [] ∨ columns = columns' := by
  have hkind := kind_eq_of_toBytes_eq hbytes
  rw [h.toBytes_eq, h'.toBytes_eq] at hbytes
  have hfields := (List.cons.inj hbytes).2
  have hfee : s.fee.toNat = s'.fee.toNat := by
    rw [fieldBytes, fieldBytes] at hfields
    exact (prefixFree_encode _ _ _ _ hfields).1
  have hlength := congrArg List.length hfields
  rw [h.length_fieldBytes, h'.length_fieldBytes, ← hkind, hfee] at hlength
  have hproofs := ((hasShape_iff h.kind_ne).mp h).2.2.2.2.1
  have hkeys : (spendShape s.kind inputs).1 * (columns * (spendShape s.kind inputs).2 + 1) =
      (spendShape s.kind inputs).1 * (columns' * (spendShape s.kind inputs).2 + 1) := by
    omega
  have hrows : 0 < (spendShape s.kind inputs).2 := by
    cases s.kind <;> simp [spendShape]
  rcases Nat.eq_zero_or_pos (spendShape s.kind inputs).1 with hzero | hpos
  · exact .inl (List.length_eq_zero_iff.mp (hproofs.trans hzero))
  · have hcolumns := Nat.add_right_cancel (Nat.eq_of_mul_eq_mul_left hpos hkeys)
    exact .inr (Nat.eq_of_mul_eq_mul_right hrows hcolumns)

end Confidential.Signature

namespace Transaction

open Wire Wire.Parser Wire.Reader

variable {limits : Limits} {b : Body} {s : Confidential.Signature} {size : ℕ} {t : Transaction}

/-- The signature without hidden amounts, or one whose lists are as long as a body asks for whose rings
have so many members. -/
def Suits (b : Body) (size : ℕ) (s : Confidential.Signature) : Prop :=
  s = .null ∨ ((∀ i ∈ b.inputs, i.keyImage?.isSome = true → i.ringSize = size) ∧
    s.written.HasShape b.inputs.length b.outputs.length size)

theorem toBytes_of_parse {bytes : List UInt8} (h : parse limits bytes = .ok t) :
    t.toBytes = bytes := by
  rw [parse, run_eq_ok_iff] at h
  simp only [parser, bind_eq_ok_iff, pure_eq_ok_iff, finish_eq_ok_iff, bodyParser_reads _ _ _ _] at h
  obtain ⟨r, b, m, ⟨hb, h₁⟩, ss, m', h₂, u, m'', ⟨hrest, rfl⟩, rfl, rfl⟩ := h
  obtain ⟨-, h₂⟩ := (signaturesParser_reads hb _ _ _).mp h₂
  have hbytes := (passes_append_iff.mpr ⟨m, h₁, h₂⟩).1
  rw [hrest, List.append_nil] at hbytes
  exact hbytes.symm

theorem parse_toBytes_of_suits (hwithin : b.Within limits) (hversion : 2 ≤ b.version)
    (hsuits : Suits b size s) (huniform : UniformRings b.inputs)
    (hsize : s.spendProofs = [] ∨ size = max (ringSize b.inputs) 1) :
    parse limits (toBytes ⟨b, .confidential s, .parsed⟩) =
      .ok ⟨b, .confidential s.written, .parsed⟩ := by
  have hbytes : toBytes ⟨b, .confidential s.written, .parsed⟩ =
      toBytes ⟨b, .confidential s, .parsed⟩ := by
    simp only [toBytes, Signatures.toBytes, s.toBytes_written]
  have hshape : s.written.WireShaped b.inputs.length b.outputs.length (max (ringSize b.inputs) 1) := by
    rcases hsuits with rfl | ⟨-, hshape⟩
    · exact .inl rfl
    · refine .inr ⟨?_, s.isBlank_written⟩
      rcases hsize with hnil | rfl
      · have hnil' : s.written.spendProofs = [] := by
          simp [Confidential.Signature.written, Confidential.Signature.blank, hnil]
        exact hshape.of_spendProofs_eq_nil hnil'
      · exact hshape
  rw [← hbytes]
  exact parse_toBytes rfl ⟨hwithin, hversion, huniform, hshape⟩

theorem uniformRings_of_parse {read : Transaction} (hversion : 2 ≤ b.version)
    (hsuits : Suits b size s)
    (h : parse limits (toBytes ⟨b, .confidential s, .parsed⟩) = .ok read) :
    UniformRings b.inputs ∧ (s.spendProofs = [] ∨ size = max (ringSize b.inputs) 1) := by
  have hwire := wireShaped_of_parse h
  have hbytes := toBytes_of_parse h
  obtain ⟨body, signatures, state⟩ := read
  obtain ⟨rfl, hrest⟩ := prefixFree_body _ _ _ _ hbytes
  cases signatures with
  | ring signatures =>
    rw [hwire.1] at hversion
    exact absurd hversion (by decide)
  | confidential c =>
    obtain ⟨-, huniform, hshape⟩ := hwire
    refine ⟨huniform, ?_⟩
    rcases hsuits with rfl | ⟨-, hsuits⟩
    · exact .inl rfl
    have hsignature : c.toBytes = s.written.toBytes := by
      rw [s.toBytes_written]
      exact hrest
    rcases hshape with rfl | ⟨hshape, -⟩
    · have hkind := Confidential.Signature.kind_eq_of_toBytes_eq hsignature
      exact absurd hkind.symm hsuits.kind_ne
    · refine (hsuits.columns_eq hshape hsignature.symm).imp_left fun hnil => ?_
      simpa [Confidential.Signature.written, Confidential.Signature.blank] using hnil

/-- A transaction that was put together from a body within the limits and a signature whose lists have
the right lengths is read from its bytes if and only if all rings of the body have one size and the
parser counts as many columns in the spend proofs, of which it expects at least one. Whatever is read is
what was written. -/
theorem parse_ofConfidential (hwithin : b.Within limits) (hsuits : Suits b size s)
    (hmade : ofConfidential b s = .ok t) :
    ((∃ read, parse limits t.toBytes = .ok read) ↔
        UniformRings b.inputs ∧ (s.spendProofs = [] ∨ size = max (ringSize b.inputs) 1)) ∧
      ∀ read, parse limits t.toBytes = .ok read →
        read = ⟨b, .confidential s.written, .parsed⟩ := by
  obtain ⟨hversion, -, rfl⟩ := ofConfidential_eq_ok_iff.mp hmade
  have hback := fun h : UniformRings b.inputs ∧ (s.spendProofs = [] ∨ _) =>
    parse_toBytes_of_suits hwithin hversion hsuits h.1 h.2
  refine ⟨⟨?_, fun h => ⟨_, hback h⟩⟩, ?_⟩
  · rintro ⟨read, hread⟩
    exact uniformRings_of_parse hversion hsuits hread
  · intro read hread
    rw [hback (uniformRings_of_parse hversion hsuits hread)] at hread
    exact (Except.ok.inj hread).symm

def emptyRing : Transaction where
  body := ⟨2, 0, [.spend 0 [] (.replicate 32 17)], [], []⟩
  signatures := .confidential { Confidential.Signature.null with
    kind := .full
    spendProofs := [⟨[], .zero, []⟩] }
  state := .parsed

/-- The transaction of two inputs is read from its bytes, that of an empty ring is not. -/
theorem parse_ofConfidential_pair : (∃ read, parse .standard pairMade.toBytes = .ok read) ∧
    ¬ ∃ read, parse .standard emptyRing.toBytes = .ok read := by
  have hpair : ofConfidential pairBody (pairMade.confidential?.getD .null) = .ok pairMade := rfl
  have hempty : ofConfidential emptyRing.body (emptyRing.confidential?.getD .null) = .ok emptyRing :=
    rfl
  have hpairSuits : Suits pairBody 2 (pairMade.confidential?.getD .null) :=
    .inr ⟨by decide, hasShape_pairSignature.blank⟩
  have hemptySuits : Suits emptyRing.body 0 (emptyRing.confidential?.getD .null) := by
    refine .inr ⟨by decide, rfl, rfl, rfl, rfl, rfl, ?_⟩
    simp only [emptyRing, confidential?, Option.getD_some, Confidential.Signature.written,
      Confidential.Signature.blank, List.map_singleton, List.mem_singleton, forall_eq]
    exact ⟨rfl, by simp⟩
  have hemptyWithin : emptyRing.body.Within .standard := by
    refine ⟨by decide, ?_, by decide, by decide⟩
    simp [emptyRing, Input.Within]
  have hmixin : uniformMixin pairBody.inputs = .ok 1 := rfl
  have huniform := (uniformMixin_eq_ok_iff.mp hmixin).1
  constructor
  · exact (parse_ofConfidential within_pairBody hpairSuits hpair).1.mpr ⟨huniform, .inr rfl⟩
  · intro hread
    have hcolumns := ((parse_ofConfidential hemptyWithin hemptySuits hempty).1.mp hread).2
    exact absurd hcolumns (by decide)

def mixedBody : Body :=
  ⟨2, 0, [.spend 0 [1] (.replicate 32 17), .spend 0 [1, 2] (.replicate 32 34)], [], []⟩

/-- Without hidden amounts rings of different sizes may be put together, but they are not read. -/
theorem exists_made_not_read : ∃ (limits : Limits) (b : Body) (size : ℕ)
    (s : Confidential.Signature) (t : Transaction), b.Within limits ∧ Suits b size s ∧
      ofConfidential b s = .ok t ∧ parse limits t.toBytes = .error (.inconsistentRingSize 1 2) := by
  refine ⟨.standard, mixedBody, 0, .null, ⟨mixedBody, .confidential .null, .parsed⟩, ?_, .inl rfl,
    rfl, ?_⟩
  · refine ⟨by decide, ?_, by decide, by decide⟩
    simp [mixedBody, Input.Within, Limits.standard]
  · decide +kernel

end Transaction
end ConfidentialTx
