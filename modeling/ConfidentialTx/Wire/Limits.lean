import ConfidentialTx.Error

/-! Ceilings for the counts of a transaction. Counts come from whoever made the bytes, so they
are compared with a ceiling before anything is read for them. -/
namespace ConfidentialTx.Wire

structure Limits where
  inputs : UInt64
  outputs : UInt64
  /-- Ring members per input, the spent output included. -/
  ringSize : UInt64
  extraLength : UInt64
  deriving DecidableEq

namespace Limits

def standard : Limits := ⟨1024, 1024, 1024, 65536⟩

instance : Inhabited Limits := ⟨standard⟩

def check (field : String) (value limit : UInt64) : Except Error Nat :=
  if limit < value then .error (.limitExceeded field value limit) else .ok value.toNat

end Limits

/-- The largest size that is told apart from larger ones. -/
def maxSize : Nat := UInt64.size - 1

def saturate (n : Nat) : Nat := min n maxSize

theorem saturate_of_le {n : Nat} (h : n ≤ maxSize) : saturate n = n := Nat.min_eq_left h

theorem saturate_le (n : Nat) : saturate n ≤ n := Nat.min_le_left _ _

end ConfidentialTx.Wire
