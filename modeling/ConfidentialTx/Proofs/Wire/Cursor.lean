import ConfidentialTx.Proofs.Wire.Stability
import ConfidentialTx.Wire.Cursor

/-! Scans and parsers. A scan follows a parser if at every position of every slice it has the outcome
that the parser has with the bytes from there on. So no sum on the way is too large for a size, and
the cursor never leaves the slice. -/
namespace ConfidentialTx.Wire

namespace Cursor

/-- What a parser knows of a cursor: the position, and the bytes that were not passed yet. -/
def reader (c : Cursor) : Reader := ⟨c.position, c.bytes.drop c.position⟩

@[simp] theorem remaining_reader (c : Cursor) : c.reader.remaining = c.remaining := by
  simp [reader, Reader.remaining, remaining]

theorem eq_of_reader_eq {c d : Cursor} (hbytes : c.bytes = d.bytes) (hreader : c.reader = d.reader) :
    c = d := by
  have hposition : c.position = d.position := congrArg Reader.position hreader
  cases c
  cases d
  cases hbytes
  cases hposition
  rfl

theorem position_add_remaining (c : Cursor) : c.position + c.remaining = c.bytes.length :=
  Nat.add_sub_cancel' c.position_le

theorem remaining_lt (c : Cursor) : c.remaining < sliceBound :=
  Nat.lt_of_le_of_lt (Nat.sub_le _ _) c.length_lt

theorem position_add_le (c : Cursor) {n : Nat} (h : n ≤ c.remaining) :
    c.position + n ≤ c.bytes.length := by
  have hposition := c.position_le
  rw [remaining] at h
  omega

theorem addSizes?_eq_some (c : Cursor) {n : Nat} (h : n ≤ c.remaining) :
    addSizes? c.position n = some (c.position + n) := by
  have hstop := c.position_add_le h
  have hbound := c.length_lt
  simp only [sliceBound, UInt64.size] at hbound
  rw [addSizes?, if_pos]
  simp only [maxSize, UInt64.size]
  omega

theorem exists_moveTo? (c : Cursor) {n : Nat} (h : n ≤ c.remaining) :
    ∃ c', c.moveTo? (c.position + n) = some c' ∧ c'.bytes = c.bytes ∧
      c'.reader = ⟨c.position + n, c.reader.rest.drop n⟩ := by
  refine ⟨_, dif_pos (c.position_add_le h), rfl, ?_⟩
  simp [reader]

theorem upTo?_eq_some (c : Cursor) {n : Nat} (h : n ≤ c.remaining) :
    c.upTo? (c.position + n) = some (c.reader.rest.take n) := by
  rw [upTo?, if_pos ⟨Nat.le_add_right _ _, c.position_add_le h⟩, Nat.add_sub_cancel_left, reader]

end Cursor

namespace Scan

variable {α β : Type}

/-- The scan has the parser's outcome, and leaves the cursor where the parser leaves the reader. -/
def FollowsAt (s : Scan α) (p : Parser α) (c : Cursor) : Prop :=
  ∃ c', s c = some ((p c.reader).1, c') ∧ c'.bytes = c.bytes ∧ c'.reader = (p c.reader).2

def Follows (s : Scan α) (p : Parser α) : Prop := ∀ c, s.FollowsAt p c

theorem follows_pure (a : α) : (pure a : Scan α).Follows (pure a) := fun c => ⟨c, rfl, rfl, rfl⟩

theorem follows_fail (e : Error) : (fail e : Scan α).Follows (Parser.fail e) :=
  fun c => ⟨c, rfl, rfl, rfl⟩

theorem follows_ofExcept (x : Except Error α) : (ofExcept x).Follows (Parser.ofExcept x) :=
  fun c => ⟨c, rfl, rfl, rfl⟩

theorem Follows.bind {s : Scan α} {p : Parser α} {f : α → Scan β} {g : α → Parser β}
    (hs : s.Follows p) (hf : ∀ a, (f a).Follows (g a)) : (s >>= f).Follows (p >>= g) := by
  intro c
  obtain ⟨c', hc', hbytes, hreader⟩ := hs c
  rcases hp : p c.reader with ⟨e | a, r⟩
  · rw [hp] at hc' hreader
    refine ⟨c', ?_, hbytes, ?_⟩
    · simp only [Bind.bind, hc', hp]
    · rw [Parser.bind_of_error hp, hreader]
  · rw [hp] at hc' hreader
    obtain ⟨c'', hc'', hbytes', hreader'⟩ := hf a c'
    rw [hreader] at hc'' hreader'
    refine ⟨c'', ?_, hbytes'.trans hbytes, ?_⟩
    · rw [Parser.bind_of_ok hp, ← hc'']
      simp only [Bind.bind, hc']
    · rw [Parser.bind_of_ok hp, hreader']

theorem Follows.times {s : Scan α} {p : Parser α} (h : s.Follows p) (n : Nat) :
    (s.times n).Follows (p.times n) := by
  induction n with
  | zero => exact follows_pure []
  | succ n ih => exact h.bind fun a => ih.bind fun as => follows_pure (a :: as)

theorem Follows.tuple {s : Scan α} {p : Parser α} (h : s.Follows p) (n : Nat) :
    (s.tuple n).Follows (p.tuple n) := by
  induction n with
  | zero => exact follows_pure Tuple.nil
  | succ n ih => exact h.bind fun a => ih.bind fun as => follows_pure (Tuple.cons a as)

theorem Follows.ite {b : Prop} [Decidable b] {s t : Scan α} {p q : Parser α} (hs : s.Follows p)
    (ht : t.Follows q) : (if b then s else t).Follows (if b then p else q) := by
  split
  · exact hs
  · exact ht

/-- What is read after a check that enough bytes are left has only to be followed where there are. -/
theorem follows_of_remaining {s : Scan α} {p : Parser α} {n : Nat} (e : Error)
    (h : ∀ c : Cursor, n ≤ c.remaining → s.FollowsAt p c) :
    (do let left ← remaining; if left < n then fail e else s).Follows
      (do let left ← Parser.remaining; if left < n then Parser.fail e else p) := by
  intro c
  have hscan : ∀ f : Nat → Scan α, (remaining >>= f) c = f c.remaining c := fun f => rfl
  simp only [FollowsAt, hscan, Parser.remaining_bind, Cursor.remaining_reader]
  by_cases hleft : c.remaining < n
  · rw [if_pos hleft, if_pos hleft]
    exact follows_fail e c
  · rw [if_neg hleft, if_neg hleft]
    exact h c (Nat.le_of_not_lt hleft)

theorem ofOption_some_bind (a : α) (f : α → Scan β) : (ofOption (some a) >>= f) = f a := rfl

theorem follows_byte (field : String) : (byte field).Follows (Parser.byte field) := by
  intro c
  cases hrest : c.reader.rest with
  | nil =>
    have hnone : c.bytes[c.position]? = none := by
      rw [← List.head?_drop]
      exact congrArg List.head? hrest
    refine ⟨c, ?_, rfl, ?_⟩
    · simp only [byte, Parser.byte, hnone, hrest]
    · simp only [Parser.byte, hrest]
  | cons b rest =>
    have hsome : c.bytes[c.position]? = some b := by
      rw [← List.head?_drop]
      exact congrArg List.head? hrest
    have hone : 1 ≤ c.remaining := by
      rw [← Cursor.remaining_reader, Reader.remaining, hrest]
      exact Nat.le_add_left _ _
    obtain ⟨c', hc', hbytes, hreader⟩ := c.exists_moveTo? hone
    refine ⟨c', ?_, hbytes, ?_⟩
    · simp only [byte, Parser.byte, hsome, hrest, c.addSizes?_eq_some hone, hc', Option.bind_some,
        bind]
    · rw [hreader, hrest]
      simp only [Parser.byte, hrest]
      rfl

theorem follows_bytes (n : Nat) (field : String) :
    (bytes n field).Follows (Parser.bytes n field) := by
  intro c
  have hlength : (c.reader.rest.take n).length = n ↔ n ≤ c.remaining := by
    rw [List.length_take, ← Cursor.remaining_reader, Reader.remaining]
    omega
  by_cases hleft : n ≤ c.remaining
  · obtain ⟨c', hc', hbytes, hreader⟩ := c.exists_moveTo? hleft
    refine ⟨c', ?_, hbytes, ?_⟩
    · simp only [bytes, Parser.bytes, if_neg (Nat.not_lt.mpr hleft), if_pos (hlength.mpr hleft),
        c.addSizes?_eq_some hleft, c.upTo?_eq_some hleft, hc', bind, Option.bind_some]
    · simp only [Parser.bytes, if_pos (hlength.mpr hleft), hreader]
      rfl
  · refine ⟨c, ?_, rfl, ?_⟩
    · simp only [bytes, Parser.bytes, if_pos (Nat.lt_of_not_le hleft), if_neg (mt hlength.mp hleft)]
    · simp only [Parser.bytes, if_neg (mt hlength.mp hleft)]

theorem follows_key (field : String) : (key field).Follows (Parser.key field) := by
  intro c
  obtain ⟨c', hc', hbytes, hreader⟩ := follows_bytes 32 field c
  by_cases hlength : (c.reader.rest.take 32).length = 32
  · have hkey : Key.ofBytes? (c.reader.rest.take 32) = some ⟨c.reader.rest.take 32, hlength⟩ :=
      dif_pos hlength
    simp only [Parser.bytes, if_pos hlength] at hc' hreader
    refine ⟨c', ?_, hbytes, ?_⟩
    · simp only [key, Parser.key, bind, hc', hkey, ofOption, Option.map_some]
    · simp only [Parser.key, hkey, hreader]
  · have hkey : Key.ofBytes? (c.reader.rest.take 32) = none := dif_neg hlength
    simp only [Parser.bytes, if_neg hlength] at hc' hreader
    refine ⟨c', ?_, hbytes, ?_⟩
    · simp only [key, Parser.key, bind, hc', hkey]
    · simp only [Parser.key, hkey, hreader]

def nextGroups (field : String) (i value : Nat) : Parser UInt64 := fun r =>
  Parser.groups field i value r.position r.rest

theorem nextGroups_eq (field : String) (i value : Nat) :
    nextGroups field i value = (do
      let b ← Parser.byte field
      let g := Varint.group b
      if 9 < i ∨ (i = 9 ∧ 1 < g) then Parser.fail (.overflow field)
      else if Varint.continues b then nextGroups field (i + 1) (value + g <<< (7 * i))
      else if g = 0 ∧ 0 < i then Parser.fail .nonMinimalVarint
      else pure (UInt64.ofNat (value + g <<< (7 * i)))) := by
  funext r
  rcases r with ⟨position, _ | ⟨b, rest⟩⟩
  · rfl
  · have hbyte : Parser.byte field ⟨position, b :: rest⟩ = (.ok b, ⟨position + 1, rest⟩) := rfl
    rw [Parser.bind_of_ok hbyte]
    simp only [nextGroups, Parser.groups]
    split
    · rfl
    split
    · rfl
    split <;> rfl

theorem follows_groups (field : String) (i value : Nat) :
    (groups field i value).Follows (nextGroups field i value) := by
  rw [groups, nextGroups_eq]
  refine (follows_byte field).bind fun b => ?_
  by_cases hover : 9 < i ∨ (i = 9 ∧ 1 < Varint.group b)
  · simp only [if_pos hover]
    exact follows_fail _
  · simp only [if_neg hover]
    have hrest := follows_groups field (i + 1) (value + Varint.group b <<< (7 * i))
    exact hrest.ite ((follows_fail _).ite (follows_pure _))
termination_by 10 - i

theorem follows_varint (field : String) : (varint field).Follows (Parser.varint field) :=
  follows_groups field 0 0

theorem follows_count (field : String) (limit : UInt64) (itemLength : Nat) :
    (count field limit itemLength).Follows (Parser.count field limit itemLength) := by
  refine (follows_varint field).bind fun value => (follows_ofExcept _).bind fun n => ?_
  exact follows_of_remaining _ fun c _ => follows_pure n c

theorem finish_eq (c : Cursor) : finish c =
    some (if c.position = c.bytes.length then .ok () else .error (.trailingBytes c.remaining), c) := by
  have hsum := c.position_add_remaining
  cases hleft : c.remaining with
  | zero =>
    have hend : c.position = c.bytes.length := by omega
    simp only [finish, hleft, if_pos hend]
  | succ n =>
    have hend : c.position ≠ c.bytes.length := by omega
    simp only [finish, hleft, if_neg hend]

end Scan
end ConfidentialTx.Wire
