import ConfidentialTx.Proofs.Confidential.Digest
import ConfidentialTx.Proofs.Transaction.History
import ConfidentialTx.Proofs.Wire.PrefixFree

/-! What a hash stands for. It does not depend on what the wire leaves out; and two transactions with
one hash have the same body and the same bytes, unless two of the byte strings that were digested for
them collide. -/
namespace ConfidentialTx.Transaction

open Wire

/-! ## What is on the wire -/

def Signatures.blank : Signatures → Signatures
  | ring signatures => ring signatures
  | confidential s => confidential s.blank

def blank (t : Transaction) : Transaction := ⟨t.body, t.signatures.blank, .parsed⟩

variable {t t' : Transaction}

theorem toBytes_blank (t : Transaction) : t.blank.toBytes = t.toBytes := by
  rw [toBytes, toBytes, blank]
  cases t.signatures with
  | ring signatures => rfl
  | confidential s => rw [Signatures.blank, Signatures.toBytes, Signatures.toBytes, s.toBytes_blank]

theorem confidential?_blank (t : Transaction) :
    t.blank.confidential? = t.confidential?.map (·.blank) := by
  rw [confidential?, confidential?, blank]
  cases t.signatures <;> rfl

theorem hash_blank (t : Transaction) : t.blank.hash = t.hash := by
  have hbytes := t.toBytes_blank
  cases hs : t.signatures with
  | ring signatures =>
    simp only [hash, hs, blank, Signatures.blank] at hbytes ⊢
    rw [hbytes]
  | confidential s =>
    simp only [hash, hs, blank, Signatures.blank, s.baseHash_blank, s.prunableHash_blank]

theorem map_baseHash_blank (t : Transaction) :
    t.blank.confidential?.map (·.baseHash) = t.confidential?.map (·.baseHash) := by
  simp only [confidential?_blank, Option.map_map, Function.comp_def,
    Confidential.Signature.baseHash_blank]

theorem map_prunableHash_blank (t : Transaction) :
    t.blank.confidential?.map (·.prunableHash) = t.confidential?.map (·.prunableHash) := by
  simp only [confidential?_blank, Option.map_map, Function.comp_def,
    Confidential.Signature.prunableHash_blank]

/-! ## Bodies are known by their bytes -/

theorem prefixFree_amountBytes : PrefixFree amountBytes :=
  prefixFree_encode.comp fun _ _ h => UInt64.toNat_inj.mp h

theorem prefixFree_counted {α : Type} {item : α → List UInt8} (h : PrefixFree item) :
    PrefixFree (counted item) := h.counted

theorem prefixFree_input : PrefixFree Input.toBytes := by
  intro i j x y h
  cases i with
  | coinbase height =>
    cases j with
    | coinbase height' =>
      obtain ⟨rfl, hxy⟩ := prefixFree_amountBytes _ _ _ _ (List.cons.inj h).2
      exact ⟨rfl, hxy⟩
    | spend amount' offsets' image' => exact absurd (List.cons.inj h).1 (by decide)
  | spend amount offsets image =>
    cases j with
    | coinbase height' => exact absurd (List.cons.inj h).1 (by decide)
    | spend amount' offsets' image' =>
      simp only [Input.toBytes, List.cons_append, List.append_assoc, List.cons.injEq,
        true_and] at h
      obtain ⟨rfl, h₁⟩ := prefixFree_amountBytes _ _ _ _ h
      obtain ⟨rfl, h₂⟩ := prefixFree_counted prefixFree_amountBytes _ _ _ _ h₁
      obtain ⟨rfl, hxy⟩ := prefixFree_toList _ _ _ _ h₂
      exact ⟨rfl, hxy⟩

theorem prefixFree_output : PrefixFree Output.toBytes := by
  rintro ⟨amount, key⟩ ⟨amount', key'⟩ x y h
  simp only [Output.toBytes, List.append_assoc, List.cons_append] at h
  obtain ⟨rfl, h₁⟩ := prefixFree_amountBytes _ _ _ _ h
  obtain ⟨rfl, hxy⟩ := prefixFree_toList _ _ _ _ (List.cons.inj h₁).2
  exact ⟨rfl, hxy⟩

theorem prefixFree_body : PrefixFree Body.toBytes := by
  have hbyte : PrefixFree fun v : UInt8 => [v] := fun _ _ _ _ h => List.cons.inj h
  rintro ⟨version, time, inputs, outputs, extra⟩ ⟨version', time', inputs', outputs', extra'⟩ x y h
  simp only [Body.toBytes, List.append_assoc] at h
  obtain ⟨rfl, h₁⟩ := prefixFree_amountBytes _ _ _ _ h
  obtain ⟨rfl, h₂⟩ := prefixFree_amountBytes _ _ _ _ h₁
  obtain ⟨rfl, h₃⟩ := prefixFree_counted prefixFree_input _ _ _ _ h₂
  obtain ⟨rfl, h₄⟩ := prefixFree_counted prefixFree_output _ _ _ _ h₃
  obtain ⟨rfl, hxy⟩ := prefixFree_counted hbyte _ _ _ _ h₄
  exact ⟨rfl, hxy⟩

/-! ## What is digested -/

/-- The byte strings that are digested for the hash of a transaction. -/
def digested (t : Transaction) : List (List UInt8) :=
  match t.signatures with
  | .ring _ => [t.toBytes]
  | .confidential s =>
    t.body.toBytes ::
      (s.digested ++ [t.body.hash.toList ++ s.baseHash.toList ++ s.prunableHash.toList])

/-- Two transactions are the same in all that is written of them. -/
structure SameOnWire (t t' : Transaction) : Prop where
  body : t.body = t'.body
  bytes : t.toBytes = t'.toBytes
  kind : t.confidential?.map (·.kind) = t'.confidential?.map (·.kind)

theorem sameOnWire_of_ring {ss ss' : List RingSignature}
    (hs : t.signatures = .ring ss) (hs' : t'.signatures = .ring ss') (h : t.hash = t'.hash) :
    t.SameOnWire t' ∨ Collide t.digested t'.digested := by
  have hdigest : keccak256 t.toBytes = keccak256 t'.toBytes := by
    simpa only [hash, hs, hs'] using h
  have hmem : t.toBytes ∈ t.digested := by simp [digested, hs]
  have hmem' : t'.toBytes ∈ t'.digested := by simp [digested, hs']
  refine (eq_or_collide hmem hmem' hdigest).imp_left fun hbytes => ?_
  exact ⟨(prefixFree_body _ _ _ _ hbytes).1, hbytes, by simp [confidential?, hs, hs']⟩

theorem mem_digested_of_confidential {s : Confidential.Signature}
    (hs : t.signatures = .confidential s) : t.body.toBytes ∈ t.digested ∧ s.digested ⊆ t.digested ∧
      t.body.hash.toList ++ s.baseHash.toList ++ s.prunableHash.toList ∈ t.digested := by
  simp only [digested, hs]
  refine ⟨List.mem_cons_self .., ?_, by simp⟩
  intro bytes hbytes
  exact List.mem_cons_of_mem _ (List.mem_append_left _ hbytes)

theorem sameOnWire_of_confidential {s s' : Confidential.Signature}
    (hs : t.signatures = .confidential s) (hs' : t'.signatures = .confidential s')
    (h : t.hash = t'.hash) : t.SameOnWire t' ∨ Collide t.digested t'.digested := by
  by_cases hcollide : Collide t.digested t'.digested
  · exact .inr hcollide
  obtain ⟨hbody, hparts, hdigests⟩ := mem_digested_of_confidential hs
  obtain ⟨hbody', hparts', hdigests'⟩ := mem_digested_of_confidential hs'
  simp only [hash, hs, hs'] at h
  have houter := (eq_or_collide hdigests hdigests' h).resolve_right hcollide
  rw [List.append_assoc, List.append_assoc] at houter
  obtain ⟨hbodyHash, hrest⟩ := prefixFree_toList _ _ _ _ houter
  obtain ⟨hbaseHash, hlast⟩ := prefixFree_toList _ _ _ _ hrest
  have hbytes := (eq_or_collide hbody hbody' hbodyHash).resolve_right hcollide
  obtain ⟨hkind, hsignature⟩ := (Confidential.Signature.toBytes_eq_or_collide hbaseHash
    (Tuple.toList_inj hlast)).resolve_right fun hc => hcollide (hc.mono hparts hparts')
  refine .inl ⟨prefixFree_body.injective hbytes, ?_, by simp [confidential?, hs, hs', hkind]⟩
  rw [toBytes, toBytes, hs, hs', hbytes, Signatures.toBytes, Signatures.toBytes, hsignature]

/-- One hash, one transaction: two transactions with signatures of one sort that have the same hash
have the same body, the same bytes and the same kind of signature, unless two of the byte strings that
were digested for them collide. -/
theorem sameOnWire_of_hash_eq
    (hsort : t.confidential?.isSome = t'.confidential?.isSome) (h : t.hash = t'.hash) :
    t.SameOnWire t' ∨ Collide t.digested t'.digested := by
  cases hs : t.signatures with
  | ring ss =>
    cases hs' : t'.signatures with
    | ring ss' => exact sameOnWire_of_ring hs hs' h
    | confidential s' => simp [confidential?, hs, hs'] at hsort
  | confidential s =>
    cases hs' : t'.signatures with
    | ring ss' => simp [confidential?, hs, hs'] at hsort
    | confidential s' => exact sameOnWire_of_confidential hs hs' h

/-- As it was read and as it was made with other rings and images, the transaction of two inputs has
one hash, and so, unless there is a collision, one form on the wire. -/
theorem sameOnWire_of_hash_eq_pair : pairRead.hash = pairMade.hash ∧
    (pairRead.SameOnWire pairMade ∨ Collide pairRead.digested pairMade.digested) := by
  have hhash : pairRead.hash = pairMade.hash := by
    rw [← pairRead.hash_blank, ← pairMade.hash_blank]
    rfl
  exact ⟨hhash, sameOnWire_of_hash_eq rfl hhash⟩

end ConfidentialTx.Transaction
