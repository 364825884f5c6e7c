import ConfidentialTx.Entropy
import Mathlib.Data.List.Forall2

/-! Steps that may fail. A list of steps has results exactly if every step has one. A draw may
give a value if it does so for some stream of random bytes, so what is proved about all that a
draw may give holds for all random choices. -/
namespace ConfidentialTx

variable {α β : Type}

theorem forall_mem_right {R : α → β → Prop} {P : β → Prop} {as : List α} {bs : List β}
    (h : List.Forall₂ R as bs) (hP : ∀ a b, R a b → P b) : ∀ b ∈ bs, P b := by
  induction h with
  | nil => simp
  | cons hab _ ih => exact List.forall_mem_cons.mpr ⟨hP _ _ hab, ih⟩

theorem length_headD_of_forall {ls : List (List α)} {n : Nat} (hne : ls ≠ [])
    (h : ∀ l ∈ ls, l.length = n) : (ls.headD []).length = n := by
  cases ls with
  | nil => exact absurd rfl hne
  | cons l ls => exact h l (List.mem_cons_self ..)

theorem exists_getElem?_of_forall₂ {R : α → β → Prop} {as : List α} {bs : List β} {i : Nat} {b : β}
    (h : List.Forall₂ R as bs) (hb : bs[i]? = some b) : ∃ a, as[i]? = some a ∧ R a b := by
  obtain ⟨hi, rfl⟩ := List.getElem?_eq_some_iff.mp hb
  have hlength := h.length_eq
  exact ⟨_, List.getElem?_eq_getElem (by omega), h.get (by omega) hi⟩

theorem forall₂_iff_map {R : α → β → Prop} {P : β → Prop} {f : β → α}
    (h : ∀ a b, R a b ↔ P b ∧ f b = a) {as : List α} {bs : List β} :
    List.Forall₂ R as bs ↔ (∀ b ∈ bs, P b) ∧ bs.map f = as := by
  induction bs generalizing as with
  | nil => simp [eq_comm]
  | cons b bs ih =>
    simp only [List.forall₂_cons_right_iff, h, ih, List.forall_mem_cons, List.map_cons]
    constructor
    · rintro ⟨a, as, ⟨hb, rfl⟩, ⟨hbs, rfl⟩, rfl⟩
      exact ⟨⟨hb, hbs⟩, rfl⟩
    · rintro ⟨⟨hb, hbs⟩, rfl⟩
      exact ⟨_, _, ⟨hb, rfl⟩, ⟨hbs, rfl⟩, rfl⟩

theorem exists_forall₂_and_iff {R : α → β → Prop} {P : β → Prop} {as : List α} :
    (∃ bs, List.Forall₂ R as bs ∧ ∀ b ∈ bs, P b) ↔ ∀ a ∈ as, ∃ b, R a b ∧ P b := by
  induction as with
  | nil => simp
  | cons a as ih =>
    rw [List.forall_mem_cons, ← ih]
    constructor
    · rintro ⟨_, himages, hall⟩
      obtain ⟨b, bs, hab, hrest, rfl⟩ := List.forall₂_cons_left_iff.mp himages
      obtain ⟨hb, hbs⟩ := List.forall_mem_cons.mp hall
      exact ⟨⟨b, hab, hb⟩, bs, hrest, hbs⟩
    · rintro ⟨⟨b, hab, hb⟩, bs, hrest, hbs⟩
      exact ⟨b :: bs, .cons hab hrest, List.forall_mem_cons.mpr ⟨hb, hbs⟩⟩

theorem Except.exists_eq_ok {ε : Type} {x : Except ε α} (h : x.isOk = true) : ∃ a, x = .ok a := by
  cases x with
  | error e => cases h
  | ok a => exact ⟨a, rfl⟩

theorem Except.bind_eq_ok_iff {ε : Type} {x : Except ε α} {f : α → Except ε β} {b : β} :
    (x >>= f) = .ok b ↔ ∃ a, x = .ok a ∧ f a = .ok b := by
  cases x <;> simp [bind, Except.bind]

theorem Except.ite_error_eq_ok_iff {ε : Type} {p : Prop} [Decidable p] {e : ε} {x : Except ε α}
    {a : α} : (if p then .error e else x) = .ok a ↔ ¬ p ∧ x = .ok a := by
  by_cases h : p <;> simp [h]

theorem Except.mapM_eq_ok_iff {ε : Type} {f : α → Except ε β} {as : List α} {bs : List β} :
    as.mapM f = .ok bs ↔ List.Forall₂ (fun a b => f a = .ok b) as bs := by
  induction as generalizing bs with
  | nil => simp [pure, Except.pure, eq_comm]
  | cons a as ih =>
    rw [List.mapM_cons, List.forall₂_cons_left_iff]
    simp only [Except.bind_eq_ok_iff, ih, pure, Except.pure, Except.ok.injEq]
    constructor
    · rintro ⟨b, hb, bs, hbs, rfl⟩
      exact ⟨b, bs, hb, hbs, rfl⟩
    · rintro ⟨b, bs, hb, hbs, rfl⟩
      exact ⟨b, hb, bs, hbs, rfl⟩

/-- The step fails for causes of one kind only. -/
def Except.FailsWith {ε : Type} (P : ε → Prop) (x : Except ε α) : Prop := ∀ e, x = .error e → P e

theorem Except.failsWith_ok {ε : Type} {P : ε → Prop} (a : α) :
    Except.FailsWith P (.ok a : Except ε α) := by
  rintro e ⟨⟩

theorem Except.failsWith_bind {ε : Type} {P : ε → Prop} {x : Except ε α} {f : α → Except ε β}
    (hx : Except.FailsWith P x) (hf : ∀ a, x = .ok a → Except.FailsWith P (f a)) :
    Except.FailsWith P (x >>= f) := by
  intro e h
  cases x with
  | error e' =>
    cases h
    exact hx _ rfl
  | ok a => exact hf a rfl e h

theorem Except.failsWith_mapM {ε : Type} {P : ε → Prop} {f : α → Except ε β} {as : List α}
    (h : ∀ a ∈ as, Except.FailsWith P (f a)) : Except.FailsWith P (as.mapM f) := by
  induction as with
  | nil => exact Except.failsWith_ok []
  | cons a as ih =>
    rw [List.mapM_cons]
    refine Except.failsWith_bind (h a (List.mem_cons_self ..)) fun b _ => ?_
    have hrest := ih fun a' ha' => h a' (List.mem_cons_of_mem _ ha')
    exact Except.failsWith_bind hrest fun bs _ => Except.failsWith_ok _

theorem Option.mapM_eq_some_iff {f : α → Option β} {as : List α} {bs : List β} :
    as.mapM f = some bs ↔ List.Forall₂ (fun a b => f a = some b) as bs := by
  induction as generalizing bs with
  | nil => simp [eq_comm]
  | cons a as ih =>
    rw [List.mapM_cons, List.forall₂_cons_left_iff]
    simp only [bind, Option.bind_eq_some_iff, ih, pure, Option.some.injEq]
    constructor
    · rintro ⟨b, hb, bs, hbs, rfl⟩
      exact ⟨b, bs, hb, hbs, rfl⟩
    · rintro ⟨b, bs, hb, hbs, rfl⟩
      exact ⟨b, hb, bs, hbs, rfl⟩

theorem Option.mapM_eq_some_map {f : α → Option β} {g : α → β} {as : List α}
    (h : ∀ a ∈ as, f a = some (g a)) : as.mapM f = some (as.map g) := by
  rw [Option.mapM_eq_some_iff, List.forall₂_map_right_iff, List.forall₂_same]
  exact h

theorem Option.isSome_mapM_iff {f : α → Option β} {as : List α} :
    (as.mapM f).isSome = true ↔ ∀ a ∈ as, (f a).isSome = true := by
  induction as with
  | nil => simp
  | cons a as ih =>
    rw [List.mapM_cons, List.forall_mem_cons, ← ih]
    cases f a <;> cases as.mapM f <;> simp

theorem Tuple.mapM_eq_some_iff {f : α → Option β} {n : Nat} {s : Tuple α n} {t : Tuple β n} :
    s.mapM f n = some t ↔ s.toList.mapM f = some t.toList := by
  induction n with
  | zero =>
    have hs := List.length_eq_zero_iff.mp s.length_toList
    have ht := List.length_eq_zero_iff.mp t.length_toList
    have he : t = .nil := Tuple.ext ht
    simp [Tuple.mapM, hs, he, Tuple.nil]
  | succ n ih =>
    rw [← Tuple.cons_head_tail s, ← Tuple.cons_head_tail t]
    simp only [Tuple.mapM, Tuple.head_cons, Tuple.tail_cons, Tuple.toList_cons, List.mapM_cons,
      bind, Option.bind_eq_some_iff, pure, Option.some.injEq, List.cons.injEq]
    constructor
    · rintro ⟨b, hb, u, hu, he⟩
      have hh := congrArg Tuple.head he
      have ht := congrArg Tuple.tail he
      rw [Tuple.head_cons, Tuple.head_cons] at hh
      rw [Tuple.tail_cons, Tuple.tail_cons] at ht
      exact ⟨b, hb, u.toList, ih.mp hu, hh, congrArg Tuple.toList ht⟩
    · rintro ⟨b, hb, bs, hbs, rfl, rfl⟩
      exact ⟨_, hb, _, ih.mpr hbs, rfl⟩

namespace Draw

/-- Some stream makes the draw give the value. -/
def Yields (d : Draw α) (a : α) : Prop := ∃ e e', d e = .ok (a, e')

theorem yields_pure_iff {a b : α} : Yields (pure a) b ↔ b = a := by
  constructor
  · rintro ⟨e, e', h⟩
    cases h
    rfl
  · rintro rfl
    exact ⟨⟨fun _ => 0, 0⟩, _, rfl⟩

theorem not_yields_throw {e : Error} {a : α} : ¬ Yields (throw e) a := by
  rintro ⟨s, s', h⟩
  cases h

theorem Yields.of_bind {d : Draw α} {f : α → Draw β} {b : β} (h : (d >>= f).Yields b) :
    ∃ a, d.Yields a ∧ (f a).Yields b := by
  obtain ⟨e, e', h⟩ := h
  obtain ⟨⟨a, s⟩, h₁, h₂⟩ := Except.bind_eq_ok_iff.mp h
  exact ⟨a, ⟨e, s, h₁⟩, ⟨s, e', h₂⟩⟩

theorem Yields.of_lift {x : Except Error α} {a : α} (h : Yields (liftM x) a) : x = .ok a := by
  obtain ⟨e, e', h⟩ := h
  obtain ⟨b, h₁, h₂⟩ := Except.bind_eq_ok_iff.mp h
  cases h₂
  exact h₁

theorem Yields.of_mapM {f : α → Draw β} {as : List α} {bs : List β} (h : (as.mapM f).Yields bs) :
    List.Forall₂ (fun a b => (f a).Yields b) as bs := by
  induction as generalizing bs with
  | nil =>
    rw [List.mapM_nil, yields_pure_iff] at h
    rw [h]
    exact .nil
  | cons a as ih =>
    rw [List.mapM_cons] at h
    obtain ⟨b, hb, h⟩ := h.of_bind
    obtain ⟨bs', hbs, h⟩ := h.of_bind
    rw [yields_pure_iff.mp h]
    exact .cons hb (ih hbs)

theorem Yields.of_tuple {f : α → Draw β} {n : Nat} {s : Tuple α n} {t : Tuple β n}
    (h : (s.mapM f n).Yields t) : List.Forall₂ (fun a b => (f a).Yields b) s.toList t.toList := by
  induction n with
  | zero =>
    have hs := List.length_eq_zero_iff.mp s.length_toList
    have ht := List.length_eq_zero_iff.mp t.length_toList
    rw [hs, ht]
    exact .nil
  | succ n ih =>
    obtain ⟨b, hb, h⟩ := Yields.of_bind h
    obtain ⟨u, hu, h⟩ := h.of_bind
    rw [yields_pure_iff.mp h, ← Tuple.cons_head_tail s]
    exact .cons hb (ih hu)

theorem Yields.length_scalars {C : KeyGroup} {n : Nat} {ss : List C.Scalar}
    (h : (scalars C n).Yields ss) : ss.length = n := by
  induction n generalizing ss with
  | zero =>
    rw [yields_pure_iff.mp h]
    rfl
  | succ n ih =>
    obtain ⟨s, -, h⟩ := Yields.of_bind h
    obtain ⟨ss', hss, h⟩ := h.of_bind
    rw [yields_pure_iff.mp h, List.length_cons, ih hss]

end Draw
end ConfidentialTx
