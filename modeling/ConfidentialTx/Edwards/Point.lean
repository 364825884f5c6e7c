import ConfidentialTx.Edwards.Coordinate

/-! Points of the twisted Edwards curve `-x² + y² = 1 + d x² y²` and their sums. Points are
affine, so that equal points are equal values; sums run in extended coordinates and are
brought back by one inversion. -/
namespace ConfidentialTx.Edwards

open Coordinate

/-- The curve constant `-121665 / 121666`. -/
def d : Nat := 0x52036cee2b6ffe738cc740797779e89800700a4d4141d8ab75eb4dca135978a3

theorem mul_d : mul d 121666 = neg 121665 := by decide

/-- Affine coordinates, both reduced. -/
structure Point where
  x : Nat
  y : Nat
  deriving DecidableEq, Inhabited

def Point.OnCurve (P : Point) : Prop :=
  add (neg (square P.x)) (square P.y) = add 1 (mul d (mul (square P.x) (square P.y)))

instance (P : Point) : Decidable P.OnCurve := inferInstanceAs (Decidable (_ = _))

/-- Extended coordinates `(X : Y : Z : T)` with `x = X / Z`, `y = Y / Z` and `x * y = T / Z`. -/
structure Extended where
  x : Nat
  y : Nat
  z : Nat
  t : Nat

def Point.zero : Point := ⟨0, 1⟩

def Point.base : Point :=
  ⟨0x216936d3cd6e53fec0a4e231fdd6dc5c692cc7609525a7b2c9562d608f25d51a,
    0x6666666666666666666666666666666666666666666666666666666666666658⟩

theorem Point.base_onCurve : Point.base.OnCurve := by decide

def Point.neg (P : Point) : Point := ⟨Coordinate.neg P.x, P.y⟩

def Point.toExtended (P : Point) : Extended := ⟨P.x, P.y, 1, mul P.x P.y⟩

namespace Extended

def zero : Extended := ⟨0, 1, 1, 0⟩

def toPoint (P : Extended) : Point :=
  let i := inv P.z
  ⟨mul P.x i, mul P.y i⟩

/-- The sum of two points; complete, as `d` is not a square. -/
def add (P Q : Extended) : Extended :=
  let a := mul (P.y + p - P.x) (Q.y + p - Q.x)
  let b := mul (P.y + P.x) (Q.y + Q.x)
  let c := mul (mul P.t Q.t) (2 * d)
  let e := mul P.z (2 * Q.z)
  let f := b + p - a
  let g := e + p - c
  let h := e + c
  let k := b + a
  ⟨mul f g, mul h k, mul g h, mul f k⟩

def double (P : Extended) : Extended :=
  let a := square P.x
  let b := square P.y
  let c := 2 * square P.z
  let k := a + b
  let f := k + p - square (P.x + P.y)
  let g := a + p - b
  let h := c + g
  ⟨mul f h, mul g k, mul h g, mul f k⟩

end Extended

def Point.add (P Q : Point) : Point := (P.toExtended.add Q.toExtended).toPoint

def Point.sub (P Q : Point) : Point := P.add Q.neg

def Point.mulByCofactor (P : Point) : Point :=
  P.toExtended.double.double.double.toPoint

end ConfidentialTx.Edwards
