import ConfidentialTx.Proofs.Confidential.WireFormat
import ConfidentialTx.Transaction.Wire
import Mathlib.Data.List.Forall2

/-! The wire format of transactions. Reading accepts exactly what writing produces of the
transactions that can stand on the wire, so every transaction has one form in bytes. -/
namespace ConfidentialTx

open Wire Wire.Parser Wire.Reader

theorem RingElement.parse_reads : RingElement.parse.Reads RingElement.toBytes fun _ => True := by
  intro r e r'
  simp only [RingElement.parse, bind_eq_ok_iff, pure_eq_ok_iff, key_reads _ _ _ _, true_and,
    RingElement.toBytes, passes_append_iff]
  constructor
  · rintro ⟨c, m, h₁, x, m', h₂, rfl, rfl⟩
    exact ⟨m, h₁, h₂⟩
  · rintro ⟨m, h₁, h₂⟩
    exact ⟨_, m, h₁, _, r', h₂, rfl, rfl⟩

theorem RingSignature.parse_reads (ringSize : Nat) :
    (RingSignature.parse ringSize).Reads RingSignature.toBytes fun s => s.size = ringSize := by
  intro r s r'
  simp only [RingSignature.parse, bind_eq_ok_iff, remaining_eq_ok_iff]
  constructor
  · rintro ⟨left, m, ⟨rfl, rfl⟩, h⟩
    split at h
    · exact absurd h fail_ne_ok
    · obtain ⟨es, m', h₁, h₂⟩ := bind_eq_ok_iff.mp h
      obtain ⟨rfl, rfl⟩ := pure_eq_ok_iff.mp h₂
      obtain ⟨⟨hn, -⟩, hp⟩ := (RingElement.parse_reads.times ringSize _ _ _).mp h₁
      exact ⟨hn, hp⟩
  · rintro ⟨hn, hp⟩
    refine ⟨r.remaining, r, ⟨rfl, rfl⟩, ?_⟩
    have hlen := hp.remaining
    have hfit := saturate_le (ringSize * 64)
    rw [RingSignature.length_toBytes, hn] at hlen
    have helements : (RingElement.parse.times ringSize) r = (.ok s.elements, r') :=
      (RingElement.parse_reads.times ringSize _ _ _).mpr ⟨⟨hn, by simp⟩, hp⟩
    rw [if_neg (by omega), bind_eq_ok_iff]
    exact ⟨s.elements, r', helements, pure_eq_ok_iff.mpr ⟨rfl, rfl⟩⟩

namespace Transaction

def Input.Within (limits : Limits) : Input → Prop
  | coinbase _ => True
  | spend _ offsets _ => offsets.length ≤ limits.ringSize.toNat

structure Body.Within (limits : Limits) (b : Body) : Prop where
  inputs : b.inputs.length ≤ limits.inputs.toNat
  rings : ∀ i ∈ b.inputs, i.Within limits
  outputs : b.outputs.length ≤ limits.outputs.toNat
  extra : b.extra.length ≤ limits.extraLength.toNat

/-- The ring size of the first input that has a ring. -/
def ringSize : List Input → Nat
  | [] => 0
  | .coinbase _ :: inputs => ringSize inputs
  | .spend _ offsets _ :: _ => offsets.length

/-- All inputs that have a ring have one of the same size. -/
def UniformRings (inputs : List Input) : Prop :=
  ∀ i ∈ inputs, i.keyImage?.isSome → i.ringSize = ringSize inputs

/-- The signatures that can be read for a body of this version, as many and as long as its inputs
and outputs ask for. -/
def Signatures.WireShaped (b : Body) : Signatures → Prop
  | ring signatures => b.version = 1 ∧
      List.Forall₂ (fun i s => s.size = i.ringSize) b.inputs signatures
  | confidential s => 2 ≤ b.version ∧ UniformRings b.inputs ∧
      s.WireShaped b.inputs.length b.outputs.length (max (ringSize b.inputs) 1)

/-- A transaction that can stand on the wire. -/
structure WireShaped (limits : Limits) (t : Transaction) : Prop where
  body : t.body.Within limits
  signatures : t.signatures.WireShaped t.body

theorem amount_reads (field : String) : (varint field).Reads amountBytes fun _ => True :=
  varint_reads field

theorem one_le_length_amountBytes (v : UInt64) : 1 ≤ (amountBytes v).length :=
  List.length_pos_iff.mpr (Varint.encode_ne_nil v.toNat)

theorem inputParser_reads (limits : Limits) :
    (inputParser limits).Reads Input.toBytes (Input.Within limits) := by
  intro r i r'
  have hoffsets := (amount_reads "key offset").counted "key offsets" limits.ringSize
    fun v _ => one_le_length_amountBytes v
  rw [inputParser, bind_eq_ok_iff]
  constructor
  · rintro ⟨tag, m, htag, h⟩
    have hp := ((byte_reads _ _ _ _).mp htag).2
    split at h
    · rename_i ht
      simp only [bind_eq_ok_iff, pure_eq_ok_iff, amount_reads _ _ _ _, true_and] at h
      obtain ⟨height, m', h₁, rfl, rfl⟩ := h
      rw [ht] at hp
      exact ⟨trivial, passes_cons_iff.mpr ⟨m, hp, h₁⟩⟩
    split at h
    · exact absurd h fail_ne_ok
    split at h
    · exact absurd h fail_ne_ok
    split at h
    · rename_i ht
      simp only [bind_eq_ok_iff, pure_eq_ok_iff, amount_reads _ _ _ _, key_reads _ _ _ _,
        true_and] at h
      obtain ⟨amount, m₁, h₁, n, m₂, hn, offsets, m₃, ho, image, m₄, h₄, rfl, rfl⟩ := h
      obtain ⟨⟨hlimit, -⟩, h₃⟩ := (hoffsets _ _ _).mp (bind_eq_ok_iff.mpr ⟨n, m₂, hn, ho⟩)
      rw [ht] at hp
      have hoffsetsRead := passes_append_iff.mpr ⟨m₁, h₁, h₃⟩
      have himageRead := passes_append_iff.mpr ⟨m₃, hoffsetsRead, h₄⟩
      exact ⟨hlimit, passes_cons_iff.mpr ⟨m, hp, himageRead⟩⟩
    · exact absurd h fail_ne_ok
  · rintro ⟨hi, hp⟩
    cases i with
    | coinbase height =>
      obtain ⟨m, htag, h₁⟩ := passes_cons_iff.mp hp
      refine ⟨coinbaseTag, m, (byte_reads _ _ _ _).mpr ⟨trivial, htag⟩, ?_⟩
      rw [if_pos rfl]
      simp only [bind_eq_ok_iff, pure_eq_ok_iff, amount_reads _ _ _ _, true_and]
      exact ⟨height, r', h₁, rfl, rfl⟩
    | spend amount offsets image =>
      obtain ⟨m, htag, hp⟩ := passes_cons_iff.mp hp
      obtain ⟨m₃, hp, h₄⟩ := passes_append_iff.mp hp
      obtain ⟨m₁, h₁, h₃⟩ := passes_append_iff.mp hp
      obtain ⟨n, m₂, hn, ho⟩ := bind_eq_ok_iff.mp ((hoffsets _ _ _).mpr ⟨⟨hi, by simp⟩, h₃⟩)
      refine ⟨keyTag, m, (byte_reads _ _ _ _).mpr ⟨trivial, htag⟩, ?_⟩
      rw [if_neg (by decide), if_neg (by decide), if_neg (by decide), if_pos rfl]
      simp only [bind_eq_ok_iff, pure_eq_ok_iff, amount_reads _ _ _ _, key_reads _ _ _ _, true_and]
      exact ⟨amount, m₁, h₁, n, m₂, hn, offsets, m₃, ho, image, r', h₄, rfl, rfl⟩

theorem outputParser_reads : outputParser.Reads Output.toBytes fun _ => True := by
  intro r o r'
  rw [outputParser, bind_eq_ok_iff, Output.toBytes, passes_append_iff]
  constructor
  · rintro ⟨amount, m, hamount, h⟩
    obtain ⟨tag, m', htag, h⟩ := bind_eq_ok_iff.mp h
    have h₁ := ((amount_reads _ _ _ _).mp hamount).2
    have h₂ := ((byte_reads _ _ _ _).mp htag).2
    split at h
    · rename_i ht
      simp only [bind_eq_ok_iff, pure_eq_ok_iff, key_reads _ _ _ _, true_and] at h
      obtain ⟨k, m'', h₃, rfl, rfl⟩ := h
      rw [ht] at h₂
      exact ⟨trivial, m, h₁, passes_cons_iff.mpr ⟨m', h₂, h₃⟩⟩
    split at h
    · exact absurd h fail_ne_ok
    split at h
    · exact absurd h fail_ne_ok
    · exact absurd h fail_ne_ok
  · rintro ⟨-, m, h₁, hp⟩
    obtain ⟨m', h₂, h₃⟩ := passes_cons_iff.mp hp
    have hamount := (amount_reads "output amount" _ _ _).mpr ⟨trivial, h₁⟩
    have htag := (byte_reads "output tag" _ _ _).mpr ⟨trivial, h₂⟩
    refine ⟨o.amount, m, hamount, bind_eq_ok_iff.mpr ⟨keyTag, m', htag, ?_⟩⟩
    rw [if_pos rfl]
    simp only [bind_eq_ok_iff, pure_eq_ok_iff, key_reads _ _ _ _, true_and]
    exact ⟨o.key, r', h₃, rfl, rfl⟩

/-- No input takes less than a tag and one byte. -/
theorem Input.two_le_length_toBytes (i : Input) : 2 ≤ i.toBytes.length := by
  cases i with
  | coinbase height =>
    have h := one_le_length_amountBytes height
    simp only [toBytes, List.length_cons]
    omega
  | spend amount offsets image =>
    simp only [toBytes, List.length_cons, List.length_append, Tuple.length_toList]
    omega

theorem Output.le_length_toBytes (o : Output) : 2 + 32 ≤ o.toBytes.length := by
  have h := one_le_length_amountBytes o.amount
  simp only [toBytes, List.length_append, List.length_cons, Tuple.length_toList]
  omega

theorem bodyParser_reads (limits : Limits) :
    (bodyParser limits).Reads Body.toBytes (Body.Within limits) := by
  intro r b r'
  have hinputs := (inputParser_reads limits).counted "inputs" limits.inputs
    fun i _ => i.two_le_length_toBytes
  have houtputs := outputParser_reads.counted "outputs" limits.outputs
    fun o _ => o.le_length_toBytes
  have hcounted : ∀ l : List UInt8, counted (fun x => [x]) l = Varint.encode l.length ++ l := by
    simp [counted]
  simp only [bodyParser, bind_eq_ok_iff, pure_eq_ok_iff, amount_reads _ _ _ _,
    bytes_reads _ _ _ _ _, true_and, Body.toBytes, hcounted, passes_append_iff, id_eq]
  constructor
  · rintro ⟨version, m₁, h₁, time, m₂, h₂, n, m₃, hn, inputs, m₄, hi, k, m₅, hk, outputs, m₆, ho, l,
      m₇, hl, extra, m₈, ⟨he, h₈⟩, rfl, rfl⟩
    obtain ⟨⟨hin, hwithin⟩, h₄⟩ := (hinputs _ _ _).mp (bind_eq_ok_iff.mpr ⟨n, m₃, hn, hi⟩)
    obtain ⟨⟨hout, -⟩, h₆⟩ := (houtputs _ _ _).mp (bind_eq_ok_iff.mpr ⟨k, m₅, hk, ho⟩)
    obtain ⟨hextra, h₇, -⟩ := count_eq_ok_iff.mp hl
    rw [← he] at hextra h₇
    exact ⟨⟨hin, hwithin, hout, hextra⟩, m₆, ⟨m₄, ⟨m₂, ⟨m₁, h₁, h₂⟩, h₄⟩, h₆⟩, m₇, h₇, h₈⟩
  · rintro ⟨⟨hin, hwithin, hout, hextra⟩, m₆, ⟨m₄, ⟨m₂, ⟨m₁, h₁, h₂⟩, h₄⟩, h₆⟩, m₇, h₇, h₈⟩
    obtain ⟨n, m₃, hn, hi⟩ := bind_eq_ok_iff.mp ((hinputs _ _ _).mpr ⟨⟨hin, hwithin⟩, h₄⟩)
    obtain ⟨k, m₅, hk, ho⟩ := bind_eq_ok_iff.mp ((houtputs _ _ _).mpr ⟨⟨hout, by simp⟩, h₆⟩)
    have hfit : saturate (b.extra.length * 1) ≤ m₇.remaining := by
      have hlen := h₈.remaining
      have hsat := saturate_le (b.extra.length * 1)
      omega
    exact ⟨b.version, m₁, h₁, b.unlockTime, m₂, h₂, n, m₃, hn, b.inputs, m₄, hi, k, m₅, hk,
      b.outputs, m₆, ho, b.extra.length, m₇, count_eq_ok_iff.mpr ⟨hextra, h₇, hfit⟩, b.extra, r',
      ⟨rfl, h₈⟩, rfl, rfl⟩

theorem ringSignaturesParser_reads (inputs : List Input) :
    (ringSignaturesParser inputs).Reads (·.flatMap RingSignature.toBytes)
      (List.Forall₂ (fun i s => s.size = i.ringSize) inputs) := by
  intro r ss r'
  induction inputs generalizing r ss r' with
  | nil =>
    rw [ringSignaturesParser, pure_eq_ok_iff, List.forall₂_nil_left_iff]
    constructor
    · rintro ⟨rfl, rfl⟩
      exact ⟨rfl, passes_nil_iff.mpr rfl⟩
    · rintro ⟨rfl, h⟩
      exact ⟨rfl, passes_nil_iff.mp h⟩
  | cons i inputs ih =>
    simp only [ringSignaturesParser, bind_eq_ok_iff, pure_eq_ok_iff,
      RingSignature.parse_reads _ _ _ _, ih, List.forall₂_cons_left_iff]
    constructor
    · rintro ⟨s, m, ⟨hs, h₁⟩, ss, m', ⟨hss, h₂⟩, rfl, rfl⟩
      exact ⟨⟨s, ss, hs, hss, rfl⟩, passes_append_iff.mpr ⟨m, h₁, h₂⟩⟩
    · rintro ⟨⟨s, ss, hs, hss, rfl⟩, h⟩
      obtain ⟨m, h₁, h₂⟩ := passes_append_iff.mp h
      exact ⟨s, m, ⟨hs, h₁⟩, ss, r', ⟨hss, h₂⟩, rfl, rfl⟩

theorem ringSize_eq_headD (inputs : List Input) :
    ringSize inputs = ((inputs.filter fun i => i.keyImage?.isSome).map Input.ringSize).headD 0 := by
  induction inputs with
  | nil => rfl
  | cons i inputs ih =>
    cases i with
    | coinbase height => exact ih
    | spend amount offsets image => rfl

theorem ringSize_cons {i : Input} {inputs : List Input} (h : i.keyImage?.isSome = true) :
    ringSize (i :: inputs) = i.ringSize := by
  cases i with
  | coinbase height => cases h
  | spend amount offsets image => rfl

theorem uniformMixin_eq_ok_iff {inputs : List Input} {mixin : Nat} :
    uniformMixin inputs = .ok mixin ↔ UniformRings inputs ∧ mixin = ringSize inputs - 1 := by
  have hall : UniformRings inputs ↔ ∀ size ∈
      (inputs.filter fun i => i.keyImage?.isSome).map Input.ringSize, size = ringSize inputs := by
    simp only [UniformRings, List.forall_mem_map, List.mem_filter, and_imp]
  rw [hall, ringSize_eq_headD, uniformMixin]
  split
  · rename_i hsizes
    simp [hsizes, eq_comm]
  · rename_i size sizes hsizes
    rw [hsizes]
    split
    · rename_i other hother
      simp only [reduceCtorEq, List.headD_cons, false_iff, not_and]
      intro h
      have h₁ := List.find?_some hother
      have h₂ := h other (List.mem_cons_of_mem _ (List.mem_of_find?_eq_some hother))
      simp [h₂] at h₁
    · rename_i hnone
      have h : ∀ x ∈ size :: sizes, x = size := by
        simpa using hnone
      simp only [Except.ok.injEq, List.headD_cons]
      exact ⟨fun h' => ⟨h, h'.symm⟩, fun h' => h'.2.symm⟩

theorem ringSize_le {limits : Limits} {inputs : List Input} (h : ∀ i ∈ inputs, i.Within limits) :
    ringSize inputs ≤ limits.ringSize.toNat := by
  induction inputs with
  | nil => exact Nat.zero_le _
  | cons i inputs ih =>
    cases i with
    | coinbase height => exact ih fun j hj => h j (List.mem_cons_of_mem _ hj)
    | spend amount offsets image => exact h _ (List.mem_cons_self ..)

theorem signaturesParser_reads {limits : Limits} {b : Body} (hb : b.Within limits) :
    (signaturesParser b).Reads Signatures.toBytes (Signatures.WireShaped b) := by
  intro r s r'
  have hsize : saturate (ringSize b.inputs - 1 + 1) = max (ringSize b.inputs) 1 := by
    have h₁ := ringSize_le hb.rings
    have h₂ := limits.ringSize.toNat_lt
    rw [saturate_of_le (by simp only [maxSize, UInt64.size]; omega)]
    omega
  rw [signaturesParser]
  split
  · rename_i h₀
    refine iff_of_false fail_ne_ok ?_
    rintro ⟨hs, -⟩
    cases s with
    | ring ss =>
      have h₁ := h₀.symm.trans hs.1
      exact absurd h₁ (by decide)
    | confidential c =>
      have h₂ := hs.1
      rw [h₀] at h₂
      exact absurd h₂ (by decide)
  · rename_i h₀
    split
    · rename_i h₁
      simp only [bind_eq_ok_iff, pure_eq_ok_iff, ringSignaturesParser_reads _ _ _ _]
      constructor
      · rintro ⟨ss, m, ⟨hss, h⟩, rfl, rfl⟩
        exact ⟨⟨h₁, hss⟩, h⟩
      · rintro ⟨hs, h⟩
        cases s with
        | ring ss => exact ⟨ss, r', ⟨hs.2, h⟩, rfl, rfl⟩
        | confidential c =>
          have h₂ := hs.1
          rw [h₁] at h₂
          exact absurd h₂ (by decide)
    · rename_i h₁
      have h₂ : 2 ≤ b.version := by
        rw [UInt64.le_iff_toNat_le]
        have h₀' : b.version.toNat ≠ 0 := fun h => h₀ (UInt64.toNat_inj.mp h)
        have h₁' : b.version.toNat ≠ 1 := fun h => h₁ (UInt64.toNat_inj.mp h)
        simp only [UInt64.reduceToNat]
        omega
      simp only [bind_eq_ok_iff, pure_eq_ok_iff, ofExcept_eq_ok_iff, uniformMixin_eq_ok_iff,
        Confidential.Signature.parse_reads _ _ _ _ _ _]
      constructor
      · rintro ⟨mixin, m, ⟨⟨hu, rfl⟩, rfl⟩, c, m', ⟨hc, h⟩, rfl, rfl⟩
        rw [hsize] at hc
        exact ⟨⟨h₂, hu, hc⟩, h⟩
      · rintro ⟨hs, h⟩
        cases s with
        | ring ss => exact absurd hs.1 h₁
        | confidential c =>
          obtain ⟨-, hu, hc⟩ := hs
          rw [← hsize] at hc
          exact ⟨_, r, ⟨⟨hu, rfl⟩, rfl⟩, c, r', ⟨hc, h⟩, rfl, rfl⟩

/-- Reading and writing are inverse: a byte string is read as a transaction if and only if it is
what is written for it and the transaction is as on the wire. -/
theorem parse_eq_ok_iff_wireShaped (limits : Limits) (bytes : List UInt8) (t : Transaction) :
    parse limits bytes = .ok t ↔
      t.toBytes = bytes ∧ t.state = .parsed ∧ t.WireShaped limits := by
  rw [parse, run_eq_ok_iff]
  simp only [parser, bind_eq_ok_iff, pure_eq_ok_iff, finish_eq_ok_iff, bodyParser_reads _ _ _ _]
  constructor
  · rintro ⟨r, b, m, ⟨hb, h₁⟩, s, m', h₂, u, m'', ⟨hrest, rfl⟩, rfl, rfl⟩
    obtain ⟨hs, h₂⟩ := (signaturesParser_reads hb _ _ _).mp h₂
    refine ⟨?_, rfl, hb, hs⟩
    have h := (passes_append_iff.mpr ⟨m, h₁, h₂⟩).1
    rw [hrest, List.append_nil] at h
    exact h.symm
  · rintro ⟨rfl, hstate, hb, hs⟩
    have h : (Reader.ofBytes t.toBytes).Passes t.toBytes ⟨t.toBytes.length, []⟩ := by
      simp [Reader.ofBytes, Passes]
    obtain ⟨m, h₁, h₂⟩ := passes_append_iff.mp h
    refine ⟨_, t.body, m, ⟨hb, h₁⟩, t.signatures, _, (signaturesParser_reads hb _ _ _).mpr ⟨hs, h₂⟩,
      (), _, ⟨rfl, rfl⟩, ?_, rfl⟩
    rw [← hstate]

end Transaction
end ConfidentialTx
