import ConfidentialTx.Confidential.Session
import ConfidentialTx.Proofs.Transaction.SizeCheck
import ConfidentialTx.Proofs.Wire.Advance

/-! Whole sequences of calls on one slice. Every call has an outcome wherever the calls before it have left
the cursor, also where they failed, and after every call the cursor is inside the slice, not before
where it was, and behind exactly the bytes that were read. -/
namespace ConfidentialTx

open Wire Wire.Parser

theorem RingElement.advances_parse : RingElement.parse.Advances :=
  (advances_key _).bind fun _ => (advances_key _).bind fun _ => advances_pure _

theorem RingSignature.advances_parse (ringSize : ℕ) : (RingSignature.parse ringSize).Advances := by
  refine advances_remaining.bind fun left => (advances_fail _).ite ?_
  exact (RingElement.advances_parse.times ringSize).bind fun elements => advances_pure _

namespace Confidential

theorem advances_kindParser : kindParser.Advances :=
  (advances_byte _).bind fun _ => advances_ofExcept _

theorem advances_maskedAmountParser : maskedAmountParser.Advances :=
  (advances_key _).bind fun _ => (advances_key _).bind fun _ => advances_pure _

theorem advances_outputParser : outputParser.Advances :=
  (advances_key _).bind fun _ => advances_pure _

theorem advances_rangeProofParser : rangeProofParser.Advances := by
  refine ((advances_key _).tuple 64).bind fun first => ?_
  refine ((advances_key _).tuple 64).bind fun second => ?_
  refine (advances_key _).bind fun challenge => ?_
  exact ((advances_key _).tuple 64).bind fun bits => advances_pure _

theorem advances_spendProofParser (columns rows : ℕ) : (spendProofParser columns rows).Advances :=
  (((advances_key _).times rows).times columns).bind fun _ =>
    (advances_key _).bind fun _ => advances_pure _

theorem advances_fieldsParser (kind : Kind) (inputs outputs ringSize : ℕ) :
    (fieldsParser kind inputs outputs ringSize).Advances := by
  refine (advances_varint _).bind fun fee => ?_
  refine ((advances_key _).times _).bind fun pseudoOutputs => ?_
  refine (advances_maskedAmountParser.times _).bind fun maskedAmounts => ?_
  refine (advances_outputParser.times _).bind fun coins => ?_
  refine (advances_rangeProofParser.times _).bind fun rangeProofs => ?_
  exact ((advances_spendProofParser _ _).times _).bind fun spendProofs => advances_pure _

theorem Signature.advances_parse (inputs outputs mixin : ℕ) :
    (Signature.parse inputs outputs mixin).Advances := by
  refine advances_kindParser.bind fun kind => (advances_pure _).ite ?_
  refine advances_remaining.bind fun left => (advances_fail _).ite ?_
  exact advances_fieldsParser kind inputs outputs _

end Confidential

namespace Session

namespace Call

def parser : (x : Call) → Parser x.Value
  | byte field => Parser.byte field
  | bytes n field => Parser.bytes n field
  | key field => Parser.key field
  | varint field => Parser.varint field
  | count field limit itemLength => Parser.count field limit itemLength
  | ringSignature ringSize => RingSignature.parse ringSize
  | confidential inputs outputs mixin => Confidential.Signature.parse inputs outputs mixin

/-- The call reads all of its bytes at once or none. -/
def IsPlain : Call → Prop
  | byte _ | bytes _ _ | key _ => True
  | _ => False

/-- The value is what the arguments of the call ask for, where so many bytes are left behind it. -/
def Fits : (x : Call) → x.Value → ℕ → Prop
  | bytes n _, (l : List UInt8), _ => l.length = n
  | count _ limit itemLength, (n : ℕ), left => n ≤ limit.toNat ∧ n * itemLength ≤ left
  | ringSignature ringSize, (s : RingSignature), _ => s.size = ringSize
  | confidential inputs outputs mixin, (s : Confidential.Signature), _ =>
    s.WireShaped inputs outputs (saturate (mixin + 1))
  | _, _, _ => True

theorem follows_scan (x : Call) : x.scan.Follows x.parser := by
  cases x with
  | byte field => exact Scan.follows_byte field
  | bytes n field => exact Scan.follows_bytes n field
  | key field => exact Scan.follows_key field
  | varint field => exact Scan.follows_varint field
  | count field limit itemLength => exact Scan.follows_count field limit itemLength
  | ringSignature ringSize => exact RingSignature.follows_scan ringSize
  | confidential inputs outputs mixin =>
    exact Confidential.Signature.follows_scan inputs outputs mixin

theorem parser_advances (x : Call) : x.parser.Advances := by
  cases x with
  | byte field => exact advances_byte field
  | bytes n field => exact advances_bytes n field
  | key field => exact advances_key field
  | varint field => exact advances_varint field
  | count field limit itemLength => exact advances_count field limit itemLength
  | ringSignature ringSize => exact RingSignature.advances_parse ringSize
  | confidential inputs outputs mixin =>
    exact Confidential.Signature.advances_parse inputs outputs mixin

variable {x : Call} {r r' : Reader}

theorem passes_of_ok {a : x.Value} (h : x.parser r = (.ok a, r')) : r.Passes (x.write a) r' := by
  cases x with
  | byte field => exact ((byte_reads field _ _ _).mp h).2
  | bytes n field => exact ((bytes_reads n field _ _ _).mp h).2
  | key field => exact ((key_reads field _ _ _).mp h).2
  | varint field => exact ((varint_reads field _ _ _).mp h).2
  | count field limit itemLength => exact (count_eq_ok_iff.mp h).2.1
  | ringSignature ringSize => exact ((RingSignature.parse_reads ringSize _ _ _).mp h).2
  | confidential inputs outputs mixin =>
    exact ((Confidential.Signature.parse_reads inputs outputs mixin _ _ _).mp h).2

theorem eq_of_error_of_isPlain (hx : x.IsPlain) {e : Error} (h : x.parser r = (.error e, r')) :
    r' = r := by
  cases x with
  | byte field =>
    rcases r with ⟨position, _ | ⟨b, rest⟩⟩
    · cases h
      rfl
    · cases h
  | bytes n field =>
    simp only [parser, Parser.bytes] at h
    split at h
    · cases h
    · cases h
      rfl
  | key field =>
    simp only [parser, Parser.key] at h
    split at h
    · cases h
    · cases h
      rfl
  | varint _ | count _ _ _ | ringSignature _ | confidential _ _ _ => cases hx

/-- The check of a count is one of the product itself: the bytes left are fewer than the largest size, so a
product that was cut down to it does not fit either. -/
theorem fits_of_ok {a : x.Value} (h : x.parser r = (.ok a, r')) (hr : r'.remaining < sliceBound) :
    x.Fits a r'.remaining := by
  cases x with
  | byte _ | key _ | varint _ => trivial
  | bytes n field => exact ((bytes_reads n field _ _ _).mp h).1
  | count field limit itemLength =>
    obtain ⟨hlimit, -, hleft⟩ := count_eq_ok_iff.mp h
    refine ⟨hlimit, ?_⟩
    have hbound : sliceBound ≤ maxSize := by decide
    rw [saturate, min_le_iff] at hleft
    omega
  | ringSignature ringSize => exact ((RingSignature.parse_reads ringSize _ _ _).mp h).1
  | confidential inputs outputs mixin =>
    exact ((Confidential.Signature.parse_reads inputs outputs mixin _ _ _).mp h).1

end Call

/-- What a call on a slice keeps and does. -/
structure Event.Disciplined (slice : List UInt8) (v : Event) : Prop where
  before_bytes : v.before.bytes = slice
  after_bytes : v.after.bytes = slice
  position_mono : v.before.position ≤ v.after.position
  position_le : v.after.position ≤ slice.length
  before_add_remaining : v.before.position + v.before.remaining = slice.length
  after_add_remaining : v.after.position + v.after.remaining = slice.length
  passed : ∀ a, v.outcome = .ok a →
    slice.drop v.before.position = v.call.write a ++ slice.drop v.after.position ∧
      v.after.position = v.before.position + (v.call.write a).length
  stays : v.call.IsPlain → ∀ e, v.outcome = .error e → v.after = v.before
  fits : ∀ a, v.outcome = .ok a → v.call.Fits a v.after.remaining

def Linked : Cursor → List Event → Prop
  | _, [] => True
  | c, v :: vs => v.before = c ∧ Linked v.after vs

theorem exists_disciplined (x : Call) (c : Cursor) : ∃ outcome c',
    x.scan c = some (outcome, c') ∧ Event.Disciplined c.bytes ⟨x, c, outcome, c'⟩ := by
  obtain ⟨c', hrun, hbytes, hreader⟩ := x.follows_scan c
  have hparser : ∀ outcome, (x.parser c.reader).1 = outcome →
      x.parser c.reader = (outcome, c'.reader) := by
    rintro _ rfl
    rw [hreader]
  have hmono : c.position ≤ c'.position := by
    have hadvances := x.parser_advances c.reader
    rwa [← hreader] at hadvances
  refine ⟨_, c', hrun, {
    before_bytes := rfl
    after_bytes := hbytes
    position_mono := hmono
    position_le := hbytes ▸ c'.position_le
    before_add_remaining := c.position_add_remaining
    after_add_remaining := hbytes ▸ c'.position_add_remaining
    passed := fun a ha => ?_
    stays := fun hplain e he => ?_
    fits := fun a ha => ?_ }⟩
  · have hpassed := Call.passes_of_ok (hparser _ ha)
    rwa [Reader.Passes, Cursor.reader, Cursor.reader, hbytes] at hpassed
  · exact Cursor.eq_of_reader_eq hbytes (Call.eq_of_error_of_isPlain hplain (hparser _ he))
  · have hfits := Call.fits_of_ok (hparser _ ha) (c'.remaining_reader ▸ c'.remaining_lt)
    rwa [Cursor.remaining_reader] at hfits

theorem exists_run (c : Cursor) (calls : List Call) :
    ∃ events, run calls c = some events ∧ events.map (·.call) = calls ∧ Linked c events ∧
      ∀ v ∈ events, v.Disciplined c.bytes := by
  induction calls generalizing c with
  | nil => exact ⟨[], rfl, rfl, trivial, fun _ h => nomatch h⟩
  | cons x calls ih =>
    obtain ⟨outcome, c', hscan, hfirst⟩ := exists_disciplined x c
    obtain ⟨events, hrun, hcalls, hlinked, hevents⟩ := ih c'
    refine ⟨⟨x, c, outcome, c'⟩ :: events, ?_, ?_, ⟨rfl, hlinked⟩, ?_⟩
    · rw [run, hscan]
      simp only [Option.bind_eq_bind, Option.bind_some, hrun]
    · rw [List.map_cons, hcalls]
    · rw [hfirst.after_bytes] at hevents
      exact List.forall_mem_cons.mpr ⟨hfirst, hevents⟩

theorem Linked.pairwise_position_le {slice : List UInt8} {c : Cursor} {events : List Event}
    (h : Linked c events) (hevents : ∀ v ∈ events, v.Disciplined slice) :
    (c.position :: events.map (·.after.position)).Pairwise (· ≤ ·) := by
  induction events generalizing c with
  | nil => exact List.pairwise_singleton _ _
  | cons v events ih =>
    obtain ⟨rfl, hlinked⟩ := h
    obtain ⟨hfirst, hevents⟩ := List.forall_mem_cons.mp hevents
    have hrest := ih hlinked hevents
    refine List.pairwise_cons.mpr ⟨List.forall_mem_cons.mpr ⟨hfirst.position_mono, ?_⟩, hrest⟩
    exact fun p hp => hfirst.position_mono.trans (List.rel_of_pairwise_cons hrest hp)

/-- Any calls on any slice, with any arguments, have an outcome each, one after the other. The position
never decreases and stays inside the slice, with the bytes left behind it; a call that succeeds passes
what is written for its value, a plain one that fails passes nothing, and a count has room. Nothing is
left exactly behind the last byte. -/
theorem run_disciplined (slice : List UInt8) (h : slice.length < sliceBound) (calls : List Call) :
    ∃ events, run calls (.start slice h) = some events ∧ events.map (·.call) = calls ∧
      Linked (.start slice h) events ∧ (∀ v ∈ events, v.Disciplined slice) ∧
      (0 :: events.map (·.after.position)).Pairwise (· ≤ ·) ∧
      ∀ c : Cursor, Scan.finish c = some (if c.position = c.bytes.length then .ok ()
        else .error (.trailingBytes c.remaining), c) := by
  obtain ⟨events, hrun, hcalls, hlinked, hevents⟩ := exists_run (.start slice h) calls
  exact ⟨events, hrun, hcalls, hlinked, hevents, hlinked.pairwise_position_le hevents,
    Scan.finish_eq⟩

/-- A key for which there are too few bytes leaves them to the calls behind it. -/
theorem run_disciplined_key : [1, 2, 3].length < sliceBound ∧
    ∃ events, run [.byte "tag", .key "key image", .bytes 2 "extra"] (.start [1, 2, 3] (by decide)) =
        some events ∧
      (∀ v ∈ events, v.Disciplined [1, 2, 3]) ∧ events.map (·.after.position) = [1, 1, 3] := by
  have hslice : ([1, 2, 3] : List UInt8).length < sliceBound := by decide
  obtain ⟨events, hrun, -, -, hevents, -⟩ :=
    run_disciplined [1, 2, 3] hslice [.byte "tag", .key "key image", .bytes 2 "extra"]
  refine ⟨hslice, events, hrun, hevents, ?_⟩
  have hpositions : (run [.byte "tag", .key "key image", .bytes 2 "extra"]
      (.start [1, 2, 3] hslice)).map (·.map (·.after.position)) = some [1, 1, 3] := by rfl
  rw [hrun] at hpositions
  exact Option.some.inj hpositions

end Session
end ConfidentialTx
