import ConfidentialTx.Proofs.Wire.Varint
import ConfidentialTx.Proofs.Wire.Stability

/-! Checks that enough bytes are left. A check of this sort may be left out wherever what is read behind
it takes at least as many bytes: then it only refuses what would be cut short later. -/
namespace ConfidentialTx.Wire.Parser

variable {α β : Type}

/-- Both succeed on the same bytes, with the same value and at the same position. They may fail for
different causes. -/
def Agrees (p q : Parser α) : Prop := ∀ r a r', p r = (.ok a, r') ↔ q r = (.ok a, r')

theorem Agrees.refl (p : Parser α) : p.Agrees p := fun _ _ _ => Iff.rfl

theorem Agrees.trans {p q q' : Parser α} (h : p.Agrees q) (h' : q.Agrees q') : p.Agrees q' :=
  fun r a r' => (h r a r').trans (h' r a r')

theorem Agrees.bind {p q : Parser α} {f g : α → Parser β} (h : p.Agrees q)
    (hfg : ∀ a, (f a).Agrees (g a)) : (p >>= f).Agrees (q >>= g) := by
  intro r b r'
  simp only [bind_eq_ok_iff, h r _ _, hfg _ _ _ _]

theorem Agrees.ite {c : Prop} [Decidable c] {p p' q q' : Parser α} (h : p.Agrees q)
    (h' : p'.Agrees q') : (if c then p else p').Agrees (if c then q else q') := by
  split
  · exact h
  · exact h'

theorem Agrees.times {p q : Parser α} (h : p.Agrees q) (n : ℕ) : (p.times n).Agrees (q.times n) := by
  induction n with
  | zero => exact .refl _
  | succ n ih => exact h.bind fun a => ih.bind fun as => .refl _

theorem Agrees.run_eq_ok_iff {p q : Parser α} (h : p.Agrees q) {bytes : List UInt8} {a : α} :
    p.run bytes = .ok a ↔ q.run bytes = .ok a := by
  rw [Parser.run_eq_ok_iff, Parser.run_eq_ok_iff]
  exact exists_congr fun r => h _ _ _

/-- No success of the parser takes less than `n` bytes. -/
def Takes (p : Parser α) (n : ℕ) : Prop := ∀ r a r', p r = (.ok a, r') → n ≤ r.remaining

theorem Takes.mono {p : Parser α} {m n : ℕ} (h : p.Takes n) (hmn : m ≤ n) : p.Takes m :=
  fun r a r' ha => hmn.trans (h r a r' ha)

theorem Takes.bind {p : Parser α} {n : ℕ} (h : p.Takes n) (f : α → Parser β) :
    (p >>= f).Takes n := by
  intro r b r' hb
  obtain ⟨a, m, ha, -⟩ := bind_eq_ok_iff.mp hb
  exact h r a m ha

theorem takes_bytes (n : ℕ) (field : String) : (bytes n field).Takes n := by
  intro r l r' h
  obtain ⟨hlength, hpasses⟩ := (bytes_reads n field _ _ _).mp h
  rw [hpasses.remaining, id_eq, hlength]
  exact Nat.le_add_right _ _

theorem Reads.takes_times {p : Parser α} {write : α → List UInt8} {P : α → Prop}
    (hp : p.Reads write P) {itemLength : ℕ} (hlength : ∀ a, P a → itemLength ≤ (write a).length)
    (n : ℕ) : (p.times n).Takes (n * itemLength) := by
  intro r as r' h
  obtain ⟨⟨rfl, has⟩, hpasses⟩ := (hp.times n _ _ _).mp h
  have hitems := length_mul_le_flatMap fun a ha => hlength a (has a ha)
  exact hitems.trans (hpasses.remaining ▸ Nat.le_add_right _ _)

theorem Takes.agrees_of_remaining {p : Parser α} {n : ℕ} (h : p.Takes n) (e : Error) :
    (do let left ← remaining; if left < n then fail e else p).Agrees p := by
  intro r a r'
  rw [remaining_bind]
  split
  · rename_i hleft
    refine iff_of_false fail_ne_ok ?_
    intro ha
    exact absurd (h r a r' ha) (Nat.not_le.mpr hleft)
  · exact Iff.rfl

theorem count_bind_eq (field : String) (limit : UInt64) (itemLength : ℕ) (f : ℕ → Parser β) :
    count field limit itemLength >>= f = (do
      let n ← countUnchecked field limit
      let left ← remaining
      if left < saturate (n * itemLength) then fail (.truncated field) else f n) := by
  simp only [count, countUnchecked, bind_assoc]
  congr 1
  funext value
  congr 1
  funext n r
  simp only [remaining_bind]
  split <;> rfl

theorem Agrees.count_bind {f g : ℕ → Parser β} {itemLength : ℕ}
    (hf : ∀ n, (f n).Takes (n * itemLength)) (hfg : ∀ n, (f n).Agrees (g n)) (field : String)
    (limit : UInt64) :
    (count field limit itemLength >>= f).Agrees (countUnchecked field limit >>= g) := by
  rw [count_bind_eq]
  refine (Agrees.refl _).bind fun n => ?_
  exact (((hf n).mono (saturate_le _)).agrees_of_remaining _).trans (hfg n)

end ConfidentialTx.Wire.Parser
