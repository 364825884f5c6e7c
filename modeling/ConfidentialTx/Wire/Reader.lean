import ConfidentialTx.Key
import ConfidentialTx.Wire.Limits
import ConfidentialTx.Wire.Varint

/-! Reading fields from a byte string. A reader knows how many bytes it has passed and which
are left; a parser moves it, also when it fails part of the way. -/
namespace ConfidentialTx.Wire

/-- How many bytes were read and what is left. -/
structure Reader where
  position : Nat
  rest : List UInt8
  deriving DecidableEq, Inhabited

namespace Reader

def ofBytes (bytes : List UInt8) : Reader := ⟨0, bytes⟩

def remaining (r : Reader) : Nat := r.rest.length

end Reader

/-- Reads a value or fails, and in either case says where the reader is afterwards. -/
def Parser (α : Type) := Reader → Except Error α × Reader

namespace Parser

variable {α β : Type}

instance : Monad Parser where
  pure a := fun r => (.ok a, r)
  bind p f := fun r =>
    match p r with
    | (.ok a, r') => f a r'
    | (.error e, r') => (.error e, r')

theorem pure_apply (a : α) (r : Reader) : (pure a : Parser α) r = (.ok a, r) := rfl

theorem bind_of_ok {p : Parser α} {f : α → Parser β} {r r' : Reader} {a : α}
    (h : p r = (.ok a, r')) : (p >>= f) r = f a r' := by
  simp only [bind, h]

theorem bind_of_error {p : Parser α} {f : α → Parser β} {r r' : Reader} {e : Error}
    (h : p r = (.error e, r')) : (p >>= f) r = (.error e, r') := by
  simp only [bind, h]

def fail (e : Error) : Parser α := fun r => (.error e, r)

def ofExcept (x : Except Error α) : Parser α := fun r => (x, r)

def remaining : Parser Nat := fun r => (.ok r.remaining, r)

def times (p : Parser α) : Nat → Parser (List α)
  | 0 => pure []
  | n + 1 => do
    let a ← p
    let as ← times p n
    pure (a :: as)

def tuple (p : Parser α) : (n : Nat) → Parser (Tuple α n)
  | 0 => pure .nil
  | n + 1 => do
    let a ← p
    let as ← tuple p n
    pure (.cons a as)

def byte (field : String) : Parser UInt8 := fun r =>
  match r.rest with
  | [] => (.error (.truncated field), r)
  | b :: rest => (.ok b, ⟨r.position + 1, rest⟩)

/-- The next `n` bytes; none is passed if there are fewer. -/
def bytes (n : Nat) (field : String) : Parser (List UInt8) := fun r =>
  let taken := r.rest.take n
  if taken.length = n then (.ok taken, ⟨r.position + n, r.rest.drop n⟩)
  else (.error (.truncated field), r)

def key (field : String) : Parser Key := fun r =>
  match Key.ofBytes? (r.rest.take 32) with
  | some k => (.ok k, ⟨r.position + 32, r.rest.drop 32⟩)
  | none => (.error (.truncated field), r)

/-- The groups of a variable-length integer from number `i` on, of which those before add up
to `value`. No more than ten groups are allowed, the tenth has a single bit, and the last one
is not zero unless it is the only one. -/
def groups (field : String) (i value position : Nat) :
    List UInt8 → Except Error UInt64 × Reader
  | [] => (.error (.truncated field), ⟨position, []⟩)
  | b :: rest =>
    let r : Reader := ⟨position + 1, rest⟩
    let g := Varint.group b
    if 9 < i ∨ (i = 9 ∧ 1 < g) then (.error (.overflow field), r)
    else if Varint.continues b then groups field (i + 1) (value + g <<< (7 * i)) (position + 1) rest
    else if g = 0 ∧ 0 < i then (.error .nonMinimalVarint, r)
    else (.ok (UInt64.ofNat (value + g <<< (7 * i))), r)

def varint (field : String) : Parser UInt64 := fun r => groups field 0 0 r.position r.rest

/-- A count that does not exceed its limit and whose items, of at least `itemLength` bytes
each, can be among the bytes left. -/
def count (field : String) (limit : UInt64) (itemLength : Nat) : Parser Nat := do
  let value ← varint field
  let n ← ofExcept (Limits.check field value limit)
  let left ← remaining
  if left < saturate (n * itemLength) then fail (.truncated field) else pure n

def countUnchecked (field : String) (limit : UInt64) : Parser Nat := do
  let value ← varint field
  ofExcept (Limits.check field value limit)

def finish : Parser Unit := fun r =>
  match r.remaining with
  | 0 => (.ok (), r)
  | n => (.error (.trailingBytes n), r)

def run (p : Parser α) (bytes : List UInt8) : Except Error α := (p (.ofBytes bytes)).1

end Parser

def Varint.decode (bytes : List UInt8) : Except Error UInt64 :=
  Parser.run (do
    let value ← Parser.varint "varint"
    Parser.finish
    pure value) bytes

end ConfidentialTx.Wire
