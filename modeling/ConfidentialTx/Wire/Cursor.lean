import ConfidentialTx.Wire.Reader

/-! Reading from a slice by position. Positions and lengths are sizes of the machine: where a sum of
two of them is too large to be one, or where what is taken or passed does not lie inside the slice,
there is no outcome at all. -/
namespace ConfidentialTx.Wire

/-- The length of a slice stays below it. -/
def sliceBound : Nat := UInt64.size / 2

def addSizes? (m n : Nat) : Option Nat := if m + n ≤ maxSize then some (m + n) else none

structure Cursor where
  bytes : List UInt8
  position : Nat
  length_lt : bytes.length < sliceBound
  position_le : position ≤ bytes.length

namespace Cursor

def start (bytes : List UInt8) (h : bytes.length < sliceBound) : Cursor :=
  ⟨bytes, 0, h, Nat.zero_le _⟩

def moveTo? (c : Cursor) (position : Nat) : Option Cursor :=
  if h : position ≤ c.bytes.length then some { c with position := position, position_le := h }
  else none

/-- The bytes up to a position, if that is inside and not behind the cursor. -/
def upTo? (c : Cursor) (stop : Nat) : Option (List UInt8) :=
  if c.position ≤ stop ∧ stop ≤ c.bytes.length then
    some ((c.bytes.drop c.position).take (stop - c.position))
  else none

def remaining (c : Cursor) : Nat := c.bytes.length - c.position

end Cursor

/-- Reads a value or fails, and in either case says where the cursor is afterwards. -/
def Scan (α : Type) := Cursor → Option (Except Error α × Cursor)

namespace Scan

variable {α : Type}

instance : Monad Scan where
  pure a := fun c => some (.ok a, c)
  bind s f := fun c =>
    match s c with
    | some (.ok a, c') => f a c'
    | some (.error e, c') => some (.error e, c')
    | none => none

def fail (e : Error) : Scan α := fun c => some (.error e, c)

def ofExcept (x : Except Error α) : Scan α := fun c => some (x, c)

/-- A value without which there is no outcome. -/
def ofOption (x : Option α) : Scan α := fun c => x.map fun a => (.ok a, c)

def remaining : Scan Nat := fun c => some (.ok c.remaining, c)

def times (s : Scan α) : Nat → Scan (List α)
  | 0 => pure []
  | n + 1 => do
    let a ← s
    let as ← times s n
    pure (a :: as)

def tuple (s : Scan α) : (n : Nat) → Scan (Tuple α n)
  | 0 => pure .nil
  | n + 1 => do
    let a ← s
    let as ← tuple s n
    pure (.cons a as)

def byte (field : String) : Scan UInt8 := fun c =>
  match c.bytes[c.position]? with
  | none => some (.error (.truncated field), c)
  | some b => do
    let stop ← addSizes? c.position 1
    let c' ← c.moveTo? stop
    some (.ok b, c')

def bytes (n : Nat) (field : String) : Scan (List UInt8) := fun c =>
  if c.remaining < n then some (.error (.truncated field), c)
  else do
    let stop ← addSizes? c.position n
    let taken ← c.upTo? stop
    let c' ← c.moveTo? stop
    some (.ok taken, c')

def key (field : String) : Scan Key := do
  let taken ← bytes 32 field
  ofOption (Key.ofBytes? taken)

def groups (field : String) (i value : Nat) : Scan UInt64 := do
  let b ← byte field
  let g := Varint.group b
  if 9 < i ∨ (i = 9 ∧ 1 < g) then fail (.overflow field)
  else if Varint.continues b then groups field (i + 1) (value + g <<< (7 * i))
  else if g = 0 ∧ 0 < i then fail .nonMinimalVarint
  else pure (UInt64.ofNat (value + g <<< (7 * i)))
termination_by 10 - i

def varint (field : String) : Scan UInt64 := groups field 0 0

def count (field : String) (limit : UInt64) (itemLength : Nat) : Scan Nat := do
  let value ← varint field
  let n ← ofExcept (Limits.check field value limit)
  let left ← remaining
  if left < saturate (n * itemLength) then fail (.truncated field) else pure n

def finish : Scan Unit := fun c =>
  match c.remaining with
  | 0 => some (.ok (), c)
  | n => some (.error (.trailingBytes n), c)

end Scan
end ConfidentialTx.Wire
