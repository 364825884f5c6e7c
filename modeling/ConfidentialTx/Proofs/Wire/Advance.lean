import ConfidentialTx.Proofs.Wire.Refusal

/-! Parsers never go back. Where they end, also after a failure in the middle of something larger, the
position is at least the one where they began. -/
namespace ConfidentialTx.Wire

namespace Parser

variable {α β : Type}

def Advances (p : Parser α) : Prop := ∀ r, r.position ≤ (p r).2.position

theorem advances_pure (a : α) : (pure a : Parser α).Advances := fun _ => Nat.le_refl _

theorem advances_fail (e : Error) : (fail e : Parser α).Advances := fun _ => Nat.le_refl _

theorem advances_ofExcept (x : Except Error α) : (ofExcept x).Advances := fun _ => Nat.le_refl _

theorem advances_remaining : remaining.Advances := fun _ => Nat.le_refl _

theorem Advances.bind {p : Parser α} {f : α → Parser β} (hp : p.Advances)
    (hf : ∀ a, (f a).Advances) : (p >>= f).Advances := by
  intro r
  have hfirst := hp r
  rcases h : p r with ⟨e | a, m⟩
  · rw [h] at hfirst
    rwa [bind_of_error h]
  · rw [h] at hfirst
    rw [bind_of_ok h]
    exact hfirst.trans (hf a m)

theorem Advances.ite {c : Prop} [Decidable c] {p q : Parser α} (hp : p.Advances)
    (hq : q.Advances) : (if c then p else q).Advances := by
  split
  · exact hp
  · exact hq

theorem Advances.times {p : Parser α} (hp : p.Advances) (n : ℕ) : (p.times n).Advances := by
  induction n with
  | zero => exact advances_pure []
  | succ n ih => exact hp.bind fun a => ih.bind fun as => advances_pure (a :: as)

theorem Advances.tuple {p : Parser α} (hp : p.Advances) (n : ℕ) : (p.tuple n).Advances := by
  induction n with
  | zero => exact advances_pure Tuple.nil
  | succ n ih => exact hp.bind fun a => ih.bind fun as => advances_pure (Tuple.cons a as)

theorem advances_byte (field : String) : (byte field).Advances := by
  rintro ⟨position, _ | ⟨b, rest⟩⟩
  · exact Nat.le_refl _
  · exact Nat.le_succ _

theorem advances_bytes (n : ℕ) (field : String) : (bytes n field).Advances := by
  intro r
  simp only [bytes]
  split
  · exact Nat.le_add_right _ _
  · exact Nat.le_refl _

theorem advances_key (field : String) : (key field).Advances := by
  intro r
  simp only [key]
  split
  · exact Nat.le_add_right _ _
  · exact Nat.le_refl _

theorem advances_varint (field : String) : (varint field).Advances := by
  intro r
  obtain ⟨n, -, -, hpassed⟩ := exists_passed_varint field r
  rw [hpassed]
  exact Nat.le_add_right _ _

theorem advances_count (field : String) (limit : UInt64) (itemLength : ℕ) :
    (count field limit itemLength).Advances := by
  refine (advances_varint field).bind fun value => (advances_ofExcept _).bind fun n => ?_
  exact advances_remaining.bind fun left => (advances_fail _).ite (advances_pure n)

end Parser

end ConfidentialTx.Wire
