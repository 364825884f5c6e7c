import ConfidentialTx.Wire.Reader

/-! What parsers accept. A parser reads a format if it succeeds on exactly the bytes that are
written for some value, wherever they stand and whatever follows them, and passes just these.
Formats of parts make up the format of the whole, so both directions are proved at once. -/
namespace ConfidentialTx.Wire

/-- Some bytes lie between two positions of a reader. -/
def Reader.Passes (r : Reader) (bytes : List UInt8) (r' : Reader) : Prop :=
  r.rest = bytes ++ r'.rest ∧ r'.position = r.position + bytes.length

namespace Reader

variable {r r' : Reader}

theorem passes_nil_iff : r.Passes [] r' ↔ r' = r := by
  constructor
  · rintro ⟨h₁, h₂⟩
    cases r; cases r'
    simp only [List.nil_append, List.length_nil, Nat.add_zero] at h₁ h₂
    rw [h₁, h₂]
  · rintro rfl
    exact ⟨rfl, rfl⟩

theorem passes_append_iff {xs ys : List UInt8} :
    r.Passes (xs ++ ys) r' ↔ ∃ m, r.Passes xs m ∧ m.Passes ys r' := by
  constructor
  · rintro ⟨h₁, h₂⟩
    refine ⟨⟨r.position + xs.length, ys ++ r'.rest⟩, ⟨?_, rfl⟩, rfl, ?_⟩
    · simpa using h₁
    · simpa [Nat.add_assoc] using h₂
  · rintro ⟨m, ⟨h₁, h₂⟩, h₃, h₄⟩
    refine ⟨?_, ?_⟩
    · rw [h₁, h₃, List.append_assoc]
    · rw [h₄, h₂, List.length_append, Nat.add_assoc]

theorem passes_cons_iff {b : UInt8} {bytes : List UInt8} :
    r.Passes (b :: bytes) r' ↔ ∃ m, r.Passes [b] m ∧ m.Passes bytes r' := by
  rw [← List.singleton_append]
  exact passes_append_iff

theorem Passes.remaining {bytes : List UInt8} (h : r.Passes bytes r') :
    r.remaining = bytes.length + r'.remaining := by
  simp [Reader.remaining, h.1]

end Reader

namespace Parser

variable {α β : Type} {r r' : Reader}

theorem bind_eq_ok_iff {p : Parser α} {f : α → Parser β} {b : β} :
    (p >>= f) r = (.ok b, r') ↔ ∃ a m, p r = (.ok a, m) ∧ f a m = (.ok b, r') := by
  constructor
  · intro h
    rcases hp : p r with ⟨e | a, m⟩
    · rw [bind_of_error hp] at h
      cases h
    · rw [bind_of_ok hp] at h
      exact ⟨a, m, rfl, h⟩
  · rintro ⟨a, m, h₁, h₂⟩
    rw [bind_of_ok h₁, h₂]

theorem pure_eq_ok_iff {a b : α} : (pure a : Parser α) r = (.ok b, r') ↔ b = a ∧ r' = r := by
  simp [pure_apply, eq_comm]

theorem fail_ne_ok {e : Error} {a : α} : (fail e : Parser α) r ≠ (.ok a, r') := by
  simp [fail]

theorem ofExcept_eq_ok_iff {x : Except Error α} {a : α} :
    ofExcept x r = (.ok a, r') ↔ x = .ok a ∧ r' = r := by
  simp [ofExcept, eq_comm]

theorem remaining_eq_ok_iff {n : Nat} :
    remaining r = (.ok n, r') ↔ n = r.remaining ∧ r' = r := by
  simp [remaining, eq_comm]

/-- `p` reads what `write` writes of the values that have `P`, and nothing else. -/
def Reads (p : Parser α) (write : α → List UInt8) (P : α → Prop) : Prop :=
  ∀ r a r', p r = (.ok a, r') ↔ P a ∧ r.Passes (write a) r'

theorem Reads.times {p : Parser α} {write : α → List UInt8} {P : α → Prop}
    (hp : p.Reads write P) (n : Nat) :
    (p.times n).Reads (·.flatMap write) fun as => as.length = n ∧ ∀ a ∈ as, P a := by
  intro r as r'
  induction n generalizing r as r' with
  | zero =>
    rw [Parser.times, pure_eq_ok_iff]
    constructor
    · rintro ⟨rfl, rfl⟩
      exact ⟨⟨rfl, by simp⟩, Reader.passes_nil_iff.mpr rfl⟩
    · rintro ⟨⟨hn, -⟩, h⟩
      obtain rfl := List.length_eq_zero_iff.mp hn
      exact ⟨rfl, Reader.passes_nil_iff.mp h⟩
  | succ n ih =>
    simp only [Parser.times, bind_eq_ok_iff, pure_eq_ok_iff, hp _ _ _, ih]
    constructor
    · rintro ⟨a, m, ⟨ha, h₁⟩, as, m', ⟨⟨hn, has⟩, h₂⟩, rfl, rfl⟩
      refine ⟨⟨by simp [hn], by simpa using ⟨ha, has⟩⟩, ?_⟩
      rw [List.flatMap_cons]
      exact Reader.passes_append_iff.mpr ⟨m, h₁, h₂⟩
    · rintro ⟨⟨hn, has⟩, h⟩
      cases as with
      | nil => cases hn
      | cons a as =>
        rw [List.flatMap_cons] at h
        obtain ⟨m, h₁, h₂⟩ := Reader.passes_append_iff.mp h
        have hn' : as.length = n := by simpa using hn
        have has' : ∀ b ∈ as, P b := fun b hb => has b (by simp [hb])
        exact ⟨a, m, ⟨has a (by simp), h₁⟩, as, r', ⟨⟨hn', has'⟩, h₂⟩, rfl, rfl⟩

theorem Reads.tuple {p : Parser α} {write : α → List UInt8} (hp : p.Reads write fun _ => True)
    (n : Nat) : (p.tuple n).Reads (·.toList.flatMap write) fun _ => True := by
  intro r t r'
  induction n generalizing r r' with
  | zero =>
    rw [Parser.tuple, pure_eq_ok_iff]
    have ht : t = .nil := Tuple.ext (List.length_eq_zero_iff.mp t.length_toList)
    simp [ht, Tuple.nil, Reader.passes_nil_iff]
  | succ n ih =>
    simp only [Parser.tuple, bind_eq_ok_iff, pure_eq_ok_iff, hp _ _ _, ih, true_and]
    constructor
    · rintro ⟨a, m, h₁, t, m', h₂, rfl, rfl⟩
      rw [Tuple.toList_cons, List.flatMap_cons]
      exact Reader.passes_append_iff.mpr ⟨m, h₁, h₂⟩
    · intro h
      rw [← Tuple.cons_head_tail t, Tuple.toList_cons, List.flatMap_cons] at h
      obtain ⟨m, h₁, h₂⟩ := Reader.passes_append_iff.mp h
      exact ⟨t.head, m, h₁, t.tail, r', h₂, (Tuple.cons_head_tail t).symm, rfl⟩

theorem byte_reads (field : String) : (byte field).Reads (fun b => [b]) fun _ => True := by
  rintro ⟨position, rest⟩ b ⟨position', rest'⟩
  cases rest with
  | nil => simp [byte, Reader.Passes]
  | cons c rest => simp [byte, Reader.Passes, eq_comm, and_assoc, and_comm]

theorem bytes_reads (n : Nat) (field : String) :
    (bytes n field).Reads id fun l => l.length = n := by
  rintro ⟨position, rest⟩ l ⟨position', rest'⟩
  simp only [bytes, Reader.Passes, id_eq]
  constructor
  · intro h
    split at h
    · rename_i hn
      cases h
      exact ⟨hn, (List.take_append_drop n rest).symm, by rw [hn]⟩
    · cases h
  · rintro ⟨rfl, rfl, rfl⟩
    simp

theorem key_reads (field : String) : (key field).Reads Tuple.toList fun _ => True := by
  rintro ⟨position, rest⟩ k ⟨position', rest'⟩
  simp only [key, Reader.Passes, true_and, Tuple.length_toList]
  constructor
  · intro h
    split at h
    · rename_i k' hk
      cases h
      have hl := Tuple.ofList?_eq_some_iff.mp hk
      exact ⟨by rw [hl, List.take_append_drop], rfl⟩
    · cases h
  · rintro ⟨rfl, rfl⟩
    have ht : (k.toList ++ rest').take 32 = k.toList := by
      rw [List.take_append_of_le_length (by simp), List.take_of_length_le (by simp)]
    have hd : (k.toList ++ rest').drop 32 = rest' := by
      rw [List.drop_append_of_le_length (by simp), List.drop_of_length_le (by simp),
        List.nil_append]
    simp [Key.ofBytes?, ht, hd]

theorem finish_eq_ok_iff {u : Unit} : finish r = (.ok u, r') ↔ r.rest = [] ∧ r' = r := by
  rcases r with ⟨position, rest⟩
  cases rest <;> simp [finish, Reader.remaining, eq_comm]

theorem run_eq_ok_iff {p : Parser α} {bytes : List UInt8} {a : α} :
    p.run bytes = .ok a ↔ ∃ r', p (.ofBytes bytes) = (.ok a, r') := by
  rcases h : p (.ofBytes bytes) with ⟨x, r'⟩
  simp [run, h]

end Parser
end ConfidentialTx.Wire
