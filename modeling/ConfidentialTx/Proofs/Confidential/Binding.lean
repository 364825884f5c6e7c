import ConfidentialTx.Proofs.Confidential.Digest
import ConfidentialTx.Proofs.Confidential.WireFormat
import ConfidentialTx.Proofs.Wire.PrefixFree

/-! What the spend proofs of a signature sign. The digest that they sign binds the message, the base
and the range proofs. No count is written into the base, so its lists are told apart only where the
numbers of inputs and outputs are known from elsewhere. -/
namespace ConfidentialTx

open Wire

/-! ## Range proofs are known by their bytes -/

theorem RangeProof.keys_injective : Function.Injective RangeProof.keys := by
  rintro ⟨⟨first, second, challenge⟩, bits⟩ ⟨⟨first', second', challenge'⟩, bits'⟩ h
  simp only [keys, List.append_assoc] at h
  obtain ⟨hfirst, h₁⟩ := List.append_inj h (by rw [first.length_toList, first'.length_toList])
  obtain ⟨hsecond, h₂⟩ := List.append_inj h₁ (by rw [second.length_toList, second'.length_toList])
  obtain ⟨rfl, hbits⟩ := List.cons.inj h₂
  rw [Tuple.toList_inj hfirst, Tuple.toList_inj hsecond, Tuple.toList_inj hbits]

theorem prefixFree_rangeProof : PrefixFree RangeProof.toBytes := by
  intro p q x y h
  obtain ⟨hkeys, hxy⟩ := concat_append_inj (by rw [p.length_keys, q.length_keys]) h
  exact ⟨RangeProof.keys_injective hkeys, hxy⟩

theorem RangeProof.toBytes_ne_nil (p : RangeProof) : p.toBytes ≠ [] := by
  refine List.ne_nil_of_length_pos ?_
  rw [toBytes, Key.length_concat, length_keys]
  decide

namespace Confidential.Signature

variable {s s' : Signature}

theorem rangeProofs_eq_of_rangeBytes_eq (h : s.rangeBytes = s'.rangeBytes) :
    s.rangeProofs = s'.rangeProofs :=
  prefixFree_rangeProof.flatMap_injective RangeProof.toBytes_ne_nil h

/-! ## The base -/

/-- The lists of the base are as long as the numbers of inputs and outputs ask for. -/
structure HasCounts (s : Signature) (inputs outputs : Nat) : Prop where
  pseudoOutputs : s.kind = .simple → s.pseudoOutputs.length = inputs
  maskedAmounts : s.maskedAmounts.length = outputs
  outputs : s.outputs.length = outputs

/-- Two signatures agree in what the base says of their inputs and outputs. -/
structure SameEntries (s s' : Signature) : Prop where
  pseudoOutputs : s.kind = .simple → s.pseudoOutputs = s'.pseudoOutputs
  maskedAmounts : s.maskedAmounts.map (fun m => (m.mask, m.amount)) =
    s'.maskedAmounts.map fun m => (m.mask, m.amount)
  commitments : s.outputs.map (·.commitment) = s'.outputs.map (·.commitment)

def pairBytes (pair : Key × Key) : List UInt8 := pair.1.toList ++ pair.2.toList

theorem prefixFree_pairBytes : PrefixFree pairBytes := by
  rintro ⟨mask, amount⟩ ⟨mask', amount'⟩ x y h
  simp only [pairBytes, List.append_assoc] at h
  obtain ⟨rfl, h₁⟩ := prefixFree_toList _ _ _ _ h
  obtain ⟨rfl, hxy⟩ := prefixFree_toList _ _ _ _ h₁
  exact ⟨rfl, hxy⟩

def entryBytes (s : Signature) : List UInt8 :=
  (if s.kind = .simple then Key.concat s.pseudoOutputs else []) ++
    ((s.maskedAmounts.map fun m => (m.mask, m.amount)).flatMap pairBytes ++
      Key.concat (s.outputs.map (·.commitment)))

theorem baseBytes_eq_cons (hkind : s.kind ≠ .null) :
    s.baseBytes = s.kind.tag :: (Varint.encode s.fee.toNat ++ s.entryBytes) := by
  cases hk : s.kind with
  | null => exact absurd hk hkind
  | full | simple => simp [baseBytes, entryBytes, pairBytes, Key.concat, List.flatMap_map, hk]

theorem fee_eq_of_baseBytes_eq (hkind : s.kind ≠ .null) (h : s.baseBytes = s'.baseBytes) :
    s.fee = s'.fee ∧ s.entryBytes = s'.entryBytes := by
  have hkind' : s'.kind ≠ .null := by rwa [← kind_eq_of_baseBytes_eq h]
  rw [baseBytes_eq_cons hkind, baseBytes_eq_cons hkind'] at h
  obtain ⟨hfee, hentries⟩ := prefixFree_encode _ _ _ _ (List.cons.inj h).2
  exact ⟨UInt64.toNat_inj.mp hfee, hentries⟩

theorem sameEntries_of_entryBytes_eq {inputs outputs : Nat} (hkind : s.kind = s'.kind)
    (hs : s.HasCounts inputs outputs) (hs' : s'.HasCounts inputs outputs)
    (h : s.entryBytes = s'.entryBytes) : s.SameEntries s' := by
  have hmasked : (s.maskedAmounts.map fun m => (m.mask, m.amount)).length =
      (s'.maskedAmounts.map fun m => (m.mask, m.amount)).length := by
    rw [List.length_map, List.length_map, hs.maskedAmounts, hs'.maskedAmounts]
  have hpseudo : (s.kind = .simple → s.pseudoOutputs = s'.pseudoOutputs) ∧
      (s.maskedAmounts.map fun m => (m.mask, m.amount)).flatMap pairBytes ++
          Key.concat (s.outputs.map (·.commitment)) =
        (s'.maskedAmounts.map fun m => (m.mask, m.amount)).flatMap pairBytes ++
          Key.concat (s'.outputs.map (·.commitment)) := by
    rw [entryBytes, entryBytes, ← hkind] at h
    by_cases hsimple : s.kind = .simple
    · rw [if_pos hsimple, if_pos hsimple] at h
      have hlength : s.pseudoOutputs.length = s'.pseudoOutputs.length := by
        rw [hs.pseudoOutputs hsimple, hs'.pseudoOutputs (hkind ▸ hsimple)]
      obtain ⟨hkeys, hrest⟩ := concat_append_inj hlength h
      exact ⟨fun _ => hkeys, hrest⟩
    · rw [if_neg hsimple, if_neg hsimple] at h
      exact ⟨fun hk => absurd hk hsimple, h⟩
  obtain ⟨hpairs, hcoins⟩ := prefixFree_pairBytes.flatMap hmasked hpseudo.2
  exact ⟨hpseudo.1, hpairs, prefixFree_toList.flatMap_injective
    (fun k => List.ne_nil_of_length_pos (by rw [k.length_toList]; decide)) hcoins⟩

/-! ## What is signed -/

/-- The byte strings that are digested for what the spend proofs sign. -/
def signedDigested (s : Signature) : List (List UInt8) :=
  [s.message.toList ++ s.baseHash.toList ++ (keccak256 s.rangeBytes).toList, s.baseBytes,
    s.rangeBytes]

/-- Two signatures agree in what the spend proofs sign. -/
structure SameSigned (s s' : Signature) : Prop where
  message : s.message = s'.message
  base : s.baseBytes = s'.baseBytes
  kind : s.kind = s'.kind
  fee : s.fee = s'.fee
  rangeProofs : s.rangeProofs = s'.rangeProofs
  entries : ∀ inputs outputs, s.HasCounts inputs outputs → s'.HasCounts inputs outputs →
    s.SameEntries s'

/-- Digests are of one length, as keys are, so the three parts of what is digested last are told
apart. -/
theorem parts_eq_or_collide (h : s.signedHash = s'.signedHash) :
    (s.message = s'.message ∧ s.baseBytes = s'.baseBytes ∧ s.rangeBytes = s'.rangeBytes) ∨
      Collide s.signedDigested s'.signedDigested := by
  by_cases hcollide : Collide s.signedDigested s'.signedDigested
  · exact .inr hcollide
  have houter : s.message.toList ++ s.baseHash.toList ++ (keccak256 s.rangeBytes).toList =
      s'.message.toList ++ s'.baseHash.toList ++ (keccak256 s'.rangeBytes).toList :=
    (eq_or_collide (by simp [signedDigested]) (by simp [signedDigested]) h).resolve_right hcollide
  rw [List.append_assoc, List.append_assoc] at houter
  obtain ⟨hmessage, hrest⟩ := prefixFree_toList _ _ _ _ houter
  obtain ⟨hbase, hrange⟩ := prefixFree_toList _ _ _ _ hrest
  have hbaseBytes : s.baseBytes = s'.baseBytes :=
    (eq_or_collide (by simp [signedDigested]) (by simp [signedDigested])
      hbase).resolve_right hcollide
  have hrangeBytes : s.rangeBytes = s'.rangeBytes :=
    (eq_or_collide (by simp [signedDigested]) (by simp [signedDigested])
      (Tuple.toList_inj hrange)).resolve_right hcollide
  exact .inl ⟨hmessage, hbaseBytes, hrangeBytes⟩

/-- One signed digest, one message, base and list of range proofs, and, for given counts, one set of
inputs and outputs, unless two of the byte strings that were digested collide. -/
theorem sameSigned_of_signedHash_eq (hkind : s.kind ≠ .null) (h : s.signedHash = s'.signedHash) :
    s.SameSigned s' ∨ Collide s.signedDigested s'.signedDigested := by
  rcases parts_eq_or_collide h with ⟨hmessage, hbase, hrange⟩ | hcollide
  · obtain ⟨hfee, hentries⟩ := fee_eq_of_baseBytes_eq hkind hbase
    have hkinds := kind_eq_of_baseBytes_eq hbase
    refine .inl ⟨hmessage, hbase, hkinds, hfee, rangeProofs_eq_of_rangeBytes_eq hrange, ?_⟩
    intro inputs outputs hs hs'
    exact sameEntries_of_entryBytes_eq hkinds hs hs' hentries
  · exact .inr hcollide

def oneToOne : Signature where
  kind := .simple
  message := .replicate 32 1
  rings := []
  pseudoOutputs := [.replicate 32 2]
  maskedAmounts := [⟨.replicate 32 3, .replicate 32 4, .zero⟩]
  outputs := [⟨.zero, .replicate 32 5⟩]
  fee := 300
  rangeProofs := [⟨⟨.replicate 64 .zero, .replicate 64 .zero, .zero⟩, .replicate 64 .zero⟩]
  spendProofs := [⟨[[.zero, .zero]], .zero, []⟩]

def oneToOneSpent : Signature :=
  { oneToOne with
    rings := [[⟨.replicate 32 6, .replicate 32 7⟩]]
    maskedAmounts := [⟨.replicate 32 3, .replicate 32 4, .replicate 32 8⟩]
    outputs := [⟨.replicate 32 9, .replicate 32 5⟩]
    spendProofs := [⟨[[.replicate 32 10, .zero]], .zero, [.replicate 32 11]⟩] }

/-- What is not signed does not change the digest, and what is signed is the same. -/
theorem sameSigned_of_signedHash_eq_oneToOne :
    oneToOne.signedHash = oneToOneSpent.signedHash ∧
      (oneToOne.SameSigned oneToOneSpent ∨
        Collide oneToOne.signedDigested oneToOneSpent.signedDigested) :=
  ⟨rfl, sameSigned_of_signedHash_eq (by decide) rfl⟩

/-- Three inputs and no output, or one output and no input: the base alone does not tell. -/
example (a b c : Key) :
    { oneToOne with pseudoOutputs := [a, b, c], maskedAmounts := [], outputs := [] }.baseBytes =
      { oneToOne with
        pseudoOutputs := [], maskedAmounts := [⟨a, b, .zero⟩],
        outputs := [⟨.zero, c⟩] }.baseBytes := by
  simp [baseBytes, oneToOne]

end Confidential.Signature
end ConfidentialTx
