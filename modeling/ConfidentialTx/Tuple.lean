/-! Lists of a fixed length. -/
namespace ConfidentialTx

structure Tuple (α : Type) (n : Nat) where
  toList : List α
  length_toList : toList.length = n

namespace Tuple

variable {α β : Type} {n : Nat}

attribute [simp] length_toList

theorem toList_inj {s t : Tuple α n} (h : s.toList = t.toList) : s = t := by
  cases s; cases t; cases h; rfl

@[ext] theorem ext {s t : Tuple α n} (h : s.toList = t.toList) : s = t := toList_inj h

instance [DecidableEq α] : DecidableEq (Tuple α n) := fun s t =>
  if h : s.toList = t.toList then isTrue (toList_inj h) else isFalse (fun e => h (e ▸ rfl))

def replicate (n : Nat) (a : α) : Tuple α n := ⟨List.replicate n a, by simp⟩

instance [Inhabited α] : Inhabited (Tuple α n) := ⟨replicate n default⟩

def ofList? (n : Nat) (l : List α) : Option (Tuple α n) :=
  if h : l.length = n then some ⟨l, h⟩ else none

@[simp] theorem ofList?_toList (t : Tuple α n) : ofList? n t.toList = some t := by
  simp [ofList?]

theorem ofList?_eq_some_iff {l : List α} {t : Tuple α n} :
    ofList? n l = some t ↔ t.toList = l := by
  constructor
  · intro h
    simp only [ofList?] at h
    split at h
    · cases h; rfl
    · cases h
  · rintro rfl; simp

def map (f : α → β) (t : Tuple α n) : Tuple β n := ⟨t.toList.map f, by simp⟩

@[simp] theorem toList_map (f : α → β) (t : Tuple α n) : (t.map f).toList = t.toList.map f := rfl

def zipWith {γ : Type} (f : α → β → γ) (s : Tuple α n) (t : Tuple β n) : Tuple γ n :=
  ⟨List.zipWith f s.toList t.toList, by simp⟩

@[simp] theorem toList_zipWith {γ : Type} (f : α → β → γ) (s : Tuple α n) (t : Tuple β n) :
    (zipWith f s t).toList = List.zipWith f s.toList t.toList := rfl

def nil : Tuple α 0 := ⟨[], rfl⟩

def cons (a : α) (t : Tuple α n) : Tuple α (n + 1) := ⟨a :: t.toList, by simp⟩

@[simp] theorem toList_cons (a : α) (t : Tuple α n) : (cons a t).toList = a :: t.toList := rfl

def head : Tuple α (n + 1) → α
  | ⟨a :: _, _⟩ => a

def tail : Tuple α (n + 1) → Tuple α n
  | ⟨_ :: l, h⟩ => ⟨l, by simpa using h⟩

@[simp] theorem head_cons (a : α) (t : Tuple α n) : (cons a t).head = a := rfl
@[simp] theorem tail_cons (a : α) (t : Tuple α n) : (cons a t).tail = t := rfl

theorem cons_head_tail (t : Tuple α (n + 1)) : cons t.head t.tail = t := by
  obtain ⟨l, h⟩ := t
  cases l with
  | nil => cases h
  | cons a l => rfl

def mapM {m : Type → Type} [Monad m] (f : α → m β) : (n : Nat) → Tuple α n → m (Tuple β n)
  | 0, _ => pure nil
  | n + 1, t => do
    let b ← f t.head
    let bs ← mapM f n t.tail
    pure (cons b bs)

end Tuple
end ConfidentialTx
