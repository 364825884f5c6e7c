import ConfidentialTx.Wire.Cursor

/-! Variable-length integers in words of 64 bits. Where a word is moved up by all of its bits there is no
outcome at all; bits that are moved beyond its top are lost. -/
namespace ConfidentialTx.Wire

namespace Varint

def encodeWord (v : UInt64) : List UInt8 :=
  if 0x80 ≤ v then (v.toUInt8 &&& 0x7f ||| 0x80) :: encodeWord (v >>> 7) else [v.toUInt8]
termination_by v.toNat
decreasing_by
  have hpos : 0 < v.toNat := Nat.lt_of_lt_of_le (by decide) (UInt64.le_iff_toNat_le.mp ‹0x80 ≤ v›)
  rw [UInt64.toNat_shiftRight, Nat.shiftRight_eq_div_pow]
  exact Nat.div_lt_self hpos (by decide)

def groupWord (b : UInt8) : UInt64 := (b &&& 0x7f).toUInt64

/-- A word moved up by `shift` bits, which cannot be all. -/
def shiftLeft? (n : UInt64) (shift : Nat) : Option UInt64 :=
  if shift < 64 then some (n <<< .ofNat shift) else none

end Varint

namespace Scan

/-- The groups of a variable-length integer from bit `shift` on, of which those before make up
`value`. -/
def wordGroups (field : String) (shift : Nat) (value : UInt64) : Scan UInt64 := do
  let b ← byte field
  let g := Varint.groupWord b
  if 63 < shift ∨ (shift = 63 ∧ 1 < g) then fail (.overflow field)
  else do
    let placed ← ofOption (Varint.shiftLeft? g shift)
    if b &&& 0x80 = 0 then
      if g = 0 ∧ 0 < shift then fail .nonMinimalVarint else pure (value ||| placed)
    else wordGroups field (shift + 7) (value ||| placed)
termination_by 70 - shift

def wordVarint (field : String) : Scan UInt64 := wordGroups field 0 0

end Scan
end ConfidentialTx.Wire
