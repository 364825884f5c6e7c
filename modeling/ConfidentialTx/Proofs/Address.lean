import ConfidentialTx.Address
import ConfidentialTx.Proofs.Base58.Text

/-! The forms of an address. The checksum leaves one raw form to an address, and base 58 leaves one text to
a raw form. -/
namespace ConfidentialTx.Address

theorem ofPayload_eq_ok_iff {payload : List UInt8} {a : Address} (h : payload.length = 65) :
    ofPayload payload = .ok a ↔ a.payload = payload := by
  obtain ⟨network, spendKey, viewKey⟩ := a
  cases payload with
  | nil => cases h
  | cons tag keys =>
    have hkeys : keys.length = 64 := Nat.succ.inj h
    have hspend : (keys.take 32).length = 32 := by rw [List.length_take, hkeys]; rfl
    have hview : (keys.drop 32).length = 32 := by rw [List.length_drop, hkeys]
    have hread : ofPayload (tag :: keys) = .ok ⟨tag, ⟨_, hspend⟩, ⟨_, hview⟩⟩ := by
      simp [ofPayload, Key.ofBytes?, Tuple.ofList?, hkeys]
    rw [hread, payload, List.cons.injEq, Except.ok.injEq, mk.injEq]
    constructor
    · rintro ⟨rfl, rfl, rfl⟩
      exact ⟨rfl, List.take_append_drop 32 keys⟩
    · rintro ⟨rfl, rfl⟩
      exact ⟨rfl, by ext1; simp, by ext1; simp⟩

theorem ofBytes_eq_ok_iff {raw : List UInt8} {a : Address} :
    ofBytes raw = .ok a ↔ raw = a.toBytes := by
  rw [ofBytes, Except.ite_error_eq_ok_iff, Except.ite_error_eq_ok_iff, not_not, not_not]
  constructor
  · rintro ⟨hlength, hsum, h⟩
    have htake : (raw.take 65).length = 65 := by rw [List.length_take, hlength]; rfl
    rw [toBytes, (ofPayload_eq_ok_iff htake).mp h, hsum, List.take_append_drop]
  · rintro rfl
    have hpayload : a.toBytes.take 65 = a.payload := List.take_left' a.length_payload
    refine ⟨length_toBytes a, ?_, ?_⟩
    · rw [hpayload]
      exact (List.drop_left' a.length_payload).symm
    · rw [hpayload]
      exact (ofPayload_eq_ok_iff a.length_payload).mpr rfl

theorem parse_eq_ok_iff {text : String} {a : Address} : parse text = .ok a ↔ a.text = text := by
  simp only [parse, Except.bind_eq_ok_iff, ofBytes_eq_ok_iff, exists_eq_right, Address.text]
  exact Base58.decode_eq_ok_iff

theorem ofBytes_eq_checksumMismatch_iff {a : Address} {sum : List UInt8} :
    ofBytes (a.payload ++ sum) = .error .checksumMismatch ↔
      sum.length = 4 ∧ sum ≠ checksum a.payload := by
  have hlength : (a.payload ++ sum).length = rawLength ↔ sum.length = 4 := by
    rw [List.length_append, length_payload, rawLength]
    omega
  have hread : ofPayload a.payload = .ok a := (ofPayload_eq_ok_iff a.length_payload).mpr rfl
  simp only [ofBytes, ne_eq, hlength, List.take_left' a.length_payload,
    List.drop_left' a.length_payload, hread]
  by_cases hfour : sum.length = 4
  · by_cases hsum : checksum a.payload = sum
    · simp [hfour, hsum]
    · simp [hfour, hsum, Ne.symm hsum]
  · simp [hfour]

/-- Every address has exactly one text, which is of 95 characters, and exactly one raw form. Behind the
tag and the keys no four bytes are accepted but the checksum of them. -/
theorem existsUnique_text :
    (∀ a, ∃! text, parse text = .ok a) ∧
    (∀ text a, parse text = .ok a ↔ a.text = text) ∧
    (∀ a : Address, a.text.length = 95) ∧
    (∀ raw a, ofBytes raw = .ok a ↔ raw = a.toBytes) ∧
    ∀ (a : Address) sum, ofBytes (a.payload ++ sum) = .error .checksumMismatch ↔
      sum.length = 4 ∧ sum ≠ checksum a.payload := by
  refine ⟨fun a => ?_, fun _ _ => parse_eq_ok_iff, fun a => ?_, fun _ _ => ofBytes_eq_ok_iff,
    fun _ _ => ofBytes_eq_checksumMismatch_iff⟩
  · refine ⟨a.text, parse_eq_ok_iff.mpr rfl, fun text htext => ?_⟩
    exact (parse_eq_ok_iff.mp htext).symm
  · rw [text, Base58.length_encode, length_toBytes]
    rfl

end ConfidentialTx.Address
