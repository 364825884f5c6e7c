import ConfidentialTx.Wire.Reader

/-! Cutting bytes off and adding some. A parser that did not miss any bytes does the same when more
of them follow, so the bytes that it takes are told apart from all that begin with them. -/
namespace ConfidentialTx.Wire

def Reader.extend (r : Reader) (extra : List UInt8) : Reader := { r with rest := r.rest ++ extra }

theorem Reader.ofBytes_append (bytes extra : List UInt8) :
    ofBytes (bytes ++ extra) = (ofBytes bytes).extend extra := rfl

@[simp] theorem Reader.remaining_extend (r : Reader) (extra : List UInt8) :
    (r.extend extra).remaining = r.remaining + extra.length := by
  simp [remaining, extend]

def CutShort {α : Type} (x : Except Error α) : Prop := ∃ field, x = .error (.truncated field)

namespace Parser

variable {α β : Type}

instance : LawfulMonad Parser := .mk' Parser
  (fun p => by
    funext r
    rcases h : p r with ⟨e | a, m⟩
    · exact bind_of_error h
    · exact bind_of_ok h)
  (fun _ _ => rfl)
  (fun p f g => by
    funext r
    rcases h : p r with ⟨e | a, m⟩
    · rw [bind_of_error h, bind_of_error (bind_of_error h)]
    · rw [bind_of_ok h]
      simp only [bind, h])

/-- More bytes at the end change nothing, unless the parser missed some. -/
def Stable (p : Parser α) : Prop :=
  ∀ r extra, CutShort (p r).1 ∨ p (r.extend extra) = ((p r).1, (p r).2.extend extra)

theorem stable_pure (a : α) : (pure a : Parser α).Stable := fun _ _ => .inr rfl

theorem stable_fail (e : Error) : (fail e : Parser α).Stable := fun _ _ => .inr rfl

theorem stable_ofExcept (x : Except Error α) : (ofExcept x).Stable := fun _ _ => .inr rfl

theorem Stable.of_ok {p : Parser α} (hp : p.Stable) {r r' : Reader} {a : α} (h : p r = (.ok a, r'))
    (extra : List UInt8) : p (r.extend extra) = (.ok a, r'.extend extra) := by
  rcases hp r extra with ⟨field, hcut⟩ | hsame
  · rw [h] at hcut
    cases hcut
  · rwa [h] at hsame

theorem Stable.bind {p : Parser α} {f : α → Parser β} (hp : p.Stable) (hf : ∀ a, (f a).Stable) :
    (p >>= f).Stable := by
  intro r extra
  rcases h : p r with ⟨e | a, m⟩
  · rw [bind_of_error h]
    rcases hp r extra with ⟨field, hcut⟩ | hsame
    · rw [h, Except.error.injEq] at hcut
      exact .inl ⟨field, by rw [hcut]⟩
    · rw [h] at hsame
      exact .inr (bind_of_error hsame)
  · rw [bind_of_ok h, bind_of_ok (hp.of_ok h extra)]
    exact hf a m extra

theorem Stable.ite {c : Prop} [Decidable c] {p q : Parser α} (hp : p.Stable) (hq : q.Stable) :
    (if c then p else q).Stable := by
  split
  · exact hp
  · exact hq

theorem remaining_bind (f : Nat → Parser α) (r : Reader) :
    (remaining >>= f) r = f r.remaining r := rfl

theorem Stable.of_remaining {p : Parser α} (hp : p.Stable) (n : Nat) (field : String) :
    (do let left ← remaining; if left < n then fail (.truncated field) else p).Stable := by
  intro r extra
  rw [remaining_bind, remaining_bind, Reader.remaining_extend]
  by_cases h : r.remaining < n
  · rw [if_pos h]
    exact .inl ⟨field, rfl⟩
  · have hextend : ¬ r.remaining + extra.length < n := by omega
    rw [if_neg h, if_neg hextend]
    exact hp r extra

theorem Stable.times {p : Parser α} (hp : p.Stable) (n : Nat) : (p.times n).Stable := by
  induction n with
  | zero => exact stable_pure []
  | succ n ih => exact hp.bind fun a => ih.bind fun as => stable_pure (a :: as)

theorem Stable.tuple {p : Parser α} (hp : p.Stable) (n : Nat) : (p.tuple n).Stable := by
  induction n with
  | zero => exact stable_pure Tuple.nil
  | succ n ih => exact hp.bind fun a => ih.bind fun as => stable_pure (Tuple.cons a as)

theorem stable_byte (field : String) : (byte field).Stable := by
  rintro ⟨position, rest⟩ extra
  cases rest with
  | nil => exact .inl ⟨field, rfl⟩
  | cons b rest => exact .inr rfl

theorem stable_bytes (n : Nat) (field : String) : (bytes n field).Stable := by
  rintro ⟨position, rest⟩ extra
  by_cases h : n ≤ rest.length
  · have htake : (rest ++ extra).take n = rest.take n := List.take_append_of_le_length h
    have hdrop : (rest ++ extra).drop n = rest.drop n ++ extra := List.drop_append_of_le_length h
    have hlength : (rest.take n).length = n := List.length_take_of_le h
    exact .inr (by simp [bytes, Reader.extend, htake, hdrop, hlength])
  · have hlength : (rest.take n).length ≠ n := by
      rw [List.length_take]
      omega
    exact .inl ⟨field, by simp only [bytes, if_neg hlength]⟩

theorem stable_key (field : String) : (key field).Stable := by
  rintro ⟨position, rest⟩ extra
  cases hk : Key.ofBytes? (rest.take 32) with
  | none => exact .inl ⟨field, by simp only [key, hk]⟩
  | some k =>
    have hlength : 32 ≤ rest.length := by
      have hk' := congrArg List.length (Tuple.ofList?_eq_some_iff.mp hk)
      rw [Tuple.length_toList, List.length_take] at hk'
      omega
    have htake : (rest ++ extra).take 32 = rest.take 32 := List.take_append_of_le_length hlength
    have hdrop : (rest ++ extra).drop 32 = rest.drop 32 ++ extra :=
      List.drop_append_of_le_length hlength
    exact .inr (by simp only [key, Reader.extend, htake, hdrop, hk])

theorem groups_append (field : String) (i value position : Nat) (bytes extra : List UInt8) :
    CutShort (groups field i value position bytes).1 ∨
      groups field i value position (bytes ++ extra) =
        ((groups field i value position bytes).1,
          (groups field i value position bytes).2.extend extra) := by
  induction bytes generalizing i value position with
  | nil => exact .inl ⟨field, rfl⟩
  | cons b rest ih =>
    simp only [List.cons_append, groups]
    split
    · exact .inr rfl
    split
    · exact ih ..
    split
    · exact .inr rfl
    · exact .inr rfl

theorem stable_varint (field : String) : (varint field).Stable :=
  fun r extra => groups_append field 0 0 r.position r.rest extra

theorem stable_count (field : String) (limit : UInt64) (itemLength : Nat) :
    (count field limit itemLength).Stable := by
  refine (stable_varint field).bind fun value => (stable_ofExcept _).bind fun n => ?_
  exact (stable_pure n).of_remaining _ field

/-- What a parser reads, if no byte is left behind it. -/
def whole (p : Parser α) : Parser α := do
  let a ← p
  finish
  pure a

theorem run_whole_of_ok {p : Parser α} {bytes : List UInt8} {r : Reader} {a : α}
    (h : p (.ofBytes bytes) = (.ok a, r)) :
    p.whole.run bytes = if r.rest = [] then .ok a else .error (.trailingBytes r.remaining) := by
  rcases r with ⟨position, rest⟩
  rw [run, whole, bind_of_ok h]
  cases rest <;> rfl

theorem run_whole_of_error {p : Parser α} {bytes : List UInt8} {r : Reader} {e : Error}
    (h : p (.ofBytes bytes) = (.error e, r)) : p.whole.run bytes = .error e := by
  rw [run, whole, bind_of_error h]

/-- Of what is read as a whole, nothing can be cut off and nothing can follow it. -/
theorem Stable.run_whole {p : Parser α} (hp : p.Stable) {bytes : List UInt8} {a : α}
    (h : p.whole.run bytes = .ok a) :
    (∀ cut, cut <+: bytes → cut ≠ bytes → CutShort (p.whole.run cut)) ∧
      ∀ extra, extra ≠ [] →
        p.whole.run (bytes ++ extra) = .error (.trailingBytes extra.length) := by
  rcases hr : p (.ofBytes bytes) with ⟨e | a', r⟩
  · rw [run_whole_of_error hr] at h
    cases h
  have hrest : r.rest = [] := by
    by_cases hnil : r.rest = []
    · exact hnil
    · rw [run_whole_of_ok hr, if_neg hnil] at h
      cases h
  refine ⟨?_, ?_⟩
  · rintro cut ⟨missing, rfl⟩ hne
    rcases hp (.ofBytes cut) missing with ⟨field, hcut⟩ | hsame
    · exact ⟨field, run_whole_of_error (Prod.ext hcut rfl)⟩
    · -- What was cut off would be left over after the whole was read.
      rw [← Reader.ofBytes_append, hr, Prod.mk.injEq] at hsame
      rw [hsame.2, Reader.extend, List.append_eq_nil_iff] at hrest
      exact absurd (by rw [hrest.2, List.append_nil]) hne
  · intro extra hextra
    have hmore := hp.of_ok hr extra
    rw [← Reader.ofBytes_append] at hmore
    have hleft : (r.extend extra).rest = extra := by rw [Reader.extend, hrest, List.nil_append]
    rw [run_whole_of_ok hmore, Reader.remaining, hleft, if_neg hextra]

end Parser
end ConfidentialTx.Wire
