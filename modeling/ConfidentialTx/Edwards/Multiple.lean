import ConfidentialTx.Edwards.Point

/-! Multiples of points and sums of multiples, four bits of every factor at a time. -/
namespace ConfidentialTx.Edwards

/-- A point with its small multiples: entry `k` of the sixteen is `k` times the point. -/
structure Multiples where
  entries : Array Extended

namespace Multiples

def progression (P : Extended) : Nat → Extended → List Extended
  | 0, acc => [acc]
  | n + 1, acc => acc :: progression P n (acc.add P)

def ofPoint (P : Point) : Multiples :=
  ⟨(progression P.toExtended 15 .zero).toArray⟩

def get (m : Multiples) (k : Nat) : Extended := m.entries.getD k .zero

end Multiples

/-- Factors below `16 ^ n` with the multiples of the points that they belong to. -/
def sumOfMultiples : Nat → List (Nat × Multiples) → Extended
  | 0, _ => .zero
  | n + 1, terms =>
    let high := sumOfMultiples n (terms.map fun t => (t.1 / 16, t.2))
    terms.foldl (fun acc t => acc.add (t.2.get (t.1 % 16))) high.double.double.double.double

def baseMultiples : Multiples := .ofPoint .base

/-- `a` times a point, for `a` below `2 ^ 256`. -/
def Point.smul (P : Point) (a : Nat) : Point :=
  (sumOfMultiples 64 [(a, .ofPoint P)]).toPoint

def Point.smulBase (a : Nat) : Point :=
  (sumOfMultiples 64 [(a, baseMultiples)]).toPoint

def Point.smulAdd (P : Point) (a b : Nat) (Q : Point) : Point :=
  (sumOfMultiples 64 [(a, .ofPoint P), (b, .ofPoint Q)]).toPoint

def Point.smulAddBase (P : Point) (a b : Nat) : Point :=
  (sumOfMultiples 64 [(a, .ofPoint P), (b, baseMultiples)]).toPoint

end ConfidentialTx.Edwards
