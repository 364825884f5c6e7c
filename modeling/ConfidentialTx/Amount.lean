/-! Sums of amounts that must stay below `2 ^ 64`. -/
namespace ConfidentialTx.Amount

def add? (a b : UInt64) : Option UInt64 :=
  if a.toNat + b.toNat < UInt64.size then some (a + b) else none

/-- The sum of some amounts on top of a given one, if no partial sum is too large. -/
def sum? (start : UInt64) : List UInt64 → Option UInt64
  | [] => some start
  | a :: as => (add? start a).bind (sum? · as)

end ConfidentialTx.Amount
