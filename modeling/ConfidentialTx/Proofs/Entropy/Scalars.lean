import Mathlib.Algebra.Order.Ring.Nat
import ConfidentialTx.Proofs.Entropy

/-! Draws that are made from scalars. Whatever the stream, such a draw cuts the bytes that it takes into
blocks of 64, reduces every block to one scalar and looks at nothing else, so that the number of bytes
is known before. -/
namespace ConfidentialTx

namespace Entropy

variable (C : KeyGroup) (e : Entropy)

/-- The scalars that the next `n` blocks of 64 bytes are reduced to. -/
def scalars (n : ℕ) : List C.Scalar :=
  (List.range n).map fun i => C.reduceWide ((e.skip (64 * i)).peek 64)

@[simp] theorem length_scalars (n : ℕ) : (e.scalars C n).length = n := by simp [scalars]

theorem skip_skip (m n : ℕ) : (e.skip m).skip n = e.skip (m + n) := by
  simp [skip, Nat.add_assoc]

theorem scalars_add (m n : ℕ) :
    e.scalars C (m + n) = e.scalars C m ++ (e.skip (64 * m)).scalars C n := by
  simp [scalars, List.range_add, skip_skip, Nat.mul_add]

end Entropy

namespace Draw

variable {C : KeyGroup} {α β : Type} {n m : ℕ}

variable (C) in
/-- Whatever the stream, the outcome is told by the scalars that the next `n` blocks of it are reduced
to, and just these blocks are taken where it is a value. -/
def FromScalars (n : ℕ) (d : Draw α) : Prop :=
  ∃ outcome : List C.Scalar → Except Error α, ∀ e : Entropy,
    d e = (outcome (e.scalars C n)).map fun a => (a, e.skip (64 * n))

variable (C) in
/-- So many bytes are taken wherever there is a value: every 64 of them are reduced to one scalar, and
nothing else is made of them. -/
def TakesBytes (bytes : ℕ) (d : Draw α) : Prop := ∃ n, bytes = 64 * n ∧ d.FromScalars C n

theorem TakesBytes.drawn_eq {d : Draw α} {bytes : ℕ} (h : d.TakesBytes C bytes) {e e' : Entropy}
    {a : α} (hrun : d e = .ok (a, e')) : e'.drawn = e.drawn + bytes := by
  obtain ⟨n, rfl, outcome, hd⟩ := h
  rw [hd] at hrun
  cases hvalue : outcome (e.scalars C n) with
  | error cause =>
    rw [hvalue] at hrun
    cases hrun
  | ok b =>
    rw [hvalue] at hrun
    cases hrun
    rfl

theorem fromScalars_pure (a : α) : (pure a : Draw α).FromScalars C 0 :=
  ⟨fun _ => .ok a, fun _ => rfl⟩

/-- What fails takes as many scalars as one likes. -/
theorem fromScalars_throw (e : Error) : (throw e : Draw α).FromScalars C n :=
  ⟨fun _ => .error e, fun _ => rfl⟩

theorem fromScalars_scalar : (scalar C).FromScalars C 1 :=
  ⟨fun ss => ss.head?.elim (.error default) .ok, fun _ => rfl⟩

theorem bind_of_error {d : Draw α} {f : α → Draw β} {e : Entropy} {cause : Error}
    (h : d e = .error cause) : (d >>= f) e = .error cause := by
  show (d e >>= fun p => f p.1 p.2) = .error cause
  rw [h]
  rfl

theorem bind_eq_ok_iff {d : Draw α} {f : α → Draw β} {e e' : Entropy} {b : β} :
    (d >>= f) e = .ok (b, e') ↔ ∃ a m, d e = .ok (a, m) ∧ f a m = .ok (b, e') := by
  constructor
  · intro h
    obtain ⟨⟨a, m⟩, hd, hf⟩ := Except.bind_eq_ok_iff.mp h
    exact ⟨a, m, hd, hf⟩
  · rintro ⟨a, m, hd, hf⟩
    rw [bind_of_ok hd, hf]

theorem FromScalars.bind {d : Draw α} {f : α → Draw β} (hd : d.FromScalars C m)
    (hf : ∀ a, d.Yields a → (f a).FromScalars C n) : (d >>= f).FromScalars C (m + n) := by
  obtain ⟨first, hfirst⟩ := hd
  choose! rest hrest using hf
  refine ⟨fun ss => first (ss.take m) >>= fun a => rest a (ss.drop m), fun e => ?_⟩
  have htake : (e.scalars C (m + n)).take m = e.scalars C m := by
    rw [Entropy.scalars_add]
    exact List.take_left' (Entropy.length_scalars C e m)
  have hdrop : (e.scalars C (m + n)).drop m = (e.skip (64 * m)).scalars C n := by
    rw [Entropy.scalars_add]
    exact List.drop_left' (Entropy.length_scalars C e m)
  have hrun := hfirst e
  simp only [htake, hdrop]
  cases hvalue : first (e.scalars C m) with
  | error cause =>
    rw [hvalue] at hrun
    exact bind_of_error hrun
  | ok a =>
    rw [hvalue] at hrun
    rw [bind_of_ok hrun, hrest a ⟨e, _, hrun⟩, Entropy.skip_skip, ← Nat.mul_add]
    rfl

theorem fromScalars_lift_bind {x : Except Error α} {f : α → Draw β}
    (hf : ∀ a, x = .ok a → (f a).FromScalars C n) : (liftM x >>= f).FromScalars C n := by
  cases x with
  | error e => exact fromScalars_throw e
  | ok a => exact hf a rfl

theorem fromScalars_scalars (n : ℕ) : (scalars C n).FromScalars C n := by
  induction n with
  | zero => exact fromScalars_pure []
  | succ n ih =>
    have hstep : (scalars C (n + 1)).FromScalars C (1 + n) :=
      fromScalars_scalar.bind fun s _ => ih.bind fun ss _ => fromScalars_pure (s :: ss)
    rwa [Nat.add_comm] at hstep

theorem fromScalars_mapM {f : α → Draw β} {k : α → ℕ} {as : List α}
    (h : ∀ a ∈ as, (f a).FromScalars C (k a)) :
    (as.mapM f).FromScalars C (as.map k).sum := by
  induction as with
  | nil => exact fromScalars_pure []
  | cons a as ih =>
    obtain ⟨hhead, htail⟩ := List.forall_mem_cons.mp h
    rw [List.mapM_cons, List.map_cons, List.sum_cons]
    exact hhead.bind fun b _ => (ih htail).bind fun bs _ => fromScalars_pure (b :: bs)

theorem fromScalars_mapM_const {f : α → Draw β} {k : ℕ} {as : List α}
    (h : ∀ a ∈ as, (f a).FromScalars C k) : (as.mapM f).FromScalars C (k * as.length) := by
  have hrun := fromScalars_mapM h
  rwa [List.map_const', List.sum_replicate_nat, Nat.mul_comm] at hrun

theorem fromScalars_tuple {f : α → Draw β} {k : α → ℕ} {t : Tuple α n}
    (h : ∀ a ∈ t.toList, (f a).FromScalars C (k a)) :
    (t.mapM f n).FromScalars C (t.toList.map k).sum := by
  induction n with
  | zero =>
    rw [List.length_eq_zero_iff.mp t.length_toList]
    exact fromScalars_pure Tuple.nil
  | succ n ih =>
    rw [← Tuple.cons_head_tail t, Tuple.toList_cons] at h ⊢
    obtain ⟨hhead, htail⟩ := List.forall_mem_cons.mp h
    rw [List.map_cons, List.sum_cons]
    exact hhead.bind fun b _ => (ih htail).bind fun bs _ => fromScalars_pure (Tuple.cons b bs)

end Draw
end ConfidentialTx
