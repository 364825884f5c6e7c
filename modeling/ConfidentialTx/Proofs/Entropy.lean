import ConfidentialTx.Proofs.Outcome

/-! What draws give. Scalars can be drawn from every stream; an even choice, if it comes to an end, is
below its bound. -/
namespace ConfidentialTx.Draw

variable {α β : Type}

theorem bind_of_ok {d : Draw α} {f : α → Draw β} {e e' : Entropy} {a : α}
    (h : d e = .ok (a, e')) : (d >>= f) e = f a e' := by
  show (d e >>= fun p => f p.1 p.2) = f a e'
  rw [h]
  rfl

/-- The draw gives a value whatever the stream. -/
def Total (d : Draw α) : Prop := ∀ e, ∃ a e', d e = .ok (a, e')

theorem total_pure (a : α) : Total (pure a) := fun e => ⟨a, e, rfl⟩

theorem total_block (n : Nat) : (block n).Total := fun e => ⟨e.peek n, e.skip n, rfl⟩

theorem Total.bind {d : Draw α} {f : α → Draw β} (hd : d.Total)
    (hf : ∀ a, d.Yields a → (f a).Total) : (d >>= f).Total := by
  intro e
  obtain ⟨a, m, ha⟩ := hd e
  obtain ⟨b, e', hb⟩ := hf a ⟨e, m, ha⟩ m
  exact ⟨b, e', (bind_of_ok ha).trans hb⟩

theorem total_lift_bind {x : Except Error α} {a : α} {f : α → Draw β} (h : x = .ok a)
    (hf : (f a).Total) : (liftM x >>= f).Total := by
  rw [h]
  exact hf

theorem total_scalar (C : KeyGroup) : (scalar C).Total :=
  (total_block 64).bind fun b _ => total_pure (C.reduceWide b)

theorem total_scalars (C : KeyGroup) (n : Nat) : (scalars C n).Total := by
  induction n with
  | zero => exact total_pure []
  | succ n ih => exact (total_scalar C).bind fun s _ => ih.bind fun ss _ => total_pure (s :: ss)

theorem total_mapM {f : α → Draw β} {as : List α} (h : ∀ a ∈ as, (f a).Total) :
    (as.mapM f).Total := by
  induction as with
  | nil => exact total_pure []
  | cons a as ih =>
    rw [List.mapM_cons]
    have hrest := ih fun a' ha' => h a' (List.mem_cons_of_mem _ ha')
    exact (h a (List.mem_cons_self ..)).bind fun b _ => hrest.bind fun bs _ => total_pure (b :: bs)

theorem total_tuple {f : α → Draw β} {n : Nat} {t : Tuple α n}
    (h : ∀ a ∈ t.toList, (f a).Total) : (t.mapM f n).Total := by
  induction n with
  | zero => exact total_pure Tuple.nil
  | succ n ih =>
    rw [← Tuple.cons_head_tail t, Tuple.toList_cons] at h
    obtain ⟨hhead, htail⟩ := List.forall_mem_cons.mp h
    exact hhead.bind fun b _ => (ih htail).bind fun bs _ => total_pure (Tuple.cons b bs)

theorem word_lt {v : Nat} (h : word.Yields v) : v < UInt64.size := by
  obtain ⟨b, -, h⟩ := Yields.of_bind h
  have hb := Bytes.toNatLE_lt b.toList
  rw [Tuple.length_toList] at hb
  rw [yields_pure_iff.mp h]
  exact hb

theorem belowWithin_lt {attempts n fuel i : Nat} (hn : 0 < n)
    (h : (belowWithin attempts n fuel).Yields i) : i < n := by
  induction fuel with
  | zero => exact absurd h not_yields_throw
  | succ fuel ih =>
    obtain ⟨v, hv, h⟩ := Yields.of_bind h
    split at h
    · rw [yields_pure_iff.mp h]
      exact Nat.div_lt_of_lt_mul (Nat.mul_lt_mul_of_pos_right (word_lt hv) hn)
    · exact ih h

theorem below_lt {attempts n i : Nat} (hn : 0 < n) (h : (below attempts n).Yields i) : i < n :=
  belowWithin_lt hn h

end ConfidentialTx.Draw
