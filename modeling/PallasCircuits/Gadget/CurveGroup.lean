import PallasCircuits.Gadget.PointScaling

namespace PallasCircuits

/-- A point of Pallas inside a circuit, infinity being `(0, 0)`. -/
structure GroupVar where
  point : PointVar Pasta.p
deriving DecidableEq

namespace GroupVar

open Builder

variable {σ : Type}

def constant (g : Pallas) : GroupVar :=
  ⟨.constant g.toCoordinates⟩

def generator : GroupVar :=
  constant .generator

def zero : GroupVar :=
  constant 0

/-- Both coordinates have to be zero. No point of the curve has `x = 0`, as five is not
a square, so for those the test on `x` would do. -/
def isZero (g : GroupVar) : Builder Pasta.p σ (BoolVar Pasta.p) := do
  let x ← g.point.x.isEqual 0
  let y ← g.point.y.isEqual 0
  x.and y

def assertOnCurve (g : GroupVar) : Builder Pasta.p σ Unit := do
  let isZero ← g.isZero
  let xx ← g.point.x.square
  let xxx ← xx.mul g.point.x
  let yy ← g.point.y.square
  assert (.product isZero.not.expr (yy - xxx - .const Pallas.b) 0)

instance : CircuitType Pasta.p GroupVar Pallas where
  Aux := Unit
  setupAux := ()
  size := 2
  toExprs g := g.point.toList
  aux _ := ()
  ofExprs?
    | [x, y], _ => some ⟨⟨x, y⟩⟩
    | _, _ => none
  encode g := g.toCoordinates.toList
  valueAux _ := ()
  decode?
    | [x, y], _ => some (.ofCoordinates ⟨x, y⟩)
    | _, _ => none
  check g := g.assertOnCurve

def neg (g : GroupVar) : GroupVar :=
  ⟨g.point.neg⟩

/-- A zero operand shares its x-coordinate only with another zero, so the sum of the
points is never at infinity unless both operands are zero or neither is. -/
def addVar (g h : GroupVar) : Builder Pasta.p σ GroupVar := do
  let (sum, isInfinity) ← g.point.add h.point
  let gZero ← g.isZero
  let hZero ← h.isZero
  let bothZero ← gZero.and hZero
  let onlyG ← gZero.and hZero.not
  let onlyH ← hZero.and gZero.not
  let special ← BoolVar.any [bothZero, onlyG, onlyH, isInfinity]
  BoolVar.switch [bothZero, onlyG, onlyH, isInfinity, special.not]
    [zero, h, g, zero, ⟨sum⟩]

def add (g h : GroupVar) : Builder Pasta.p σ GroupVar :=
  match CircuitType.constantValue? (n := Pasta.p) g,
    CircuitType.constantValue? (n := Pasta.p) h with
  | some a, some b => return constant (a + b)
  | _, _ => g.addVar h

def sub (g h : GroupVar) : Builder Pasta.p σ GroupVar :=
  g.add h.neg

def scaleWith (g : GroupVar)
    (multiple : PointVar Pasta.p → Builder Pasta.p σ (PointVar Pasta.p)) :
    Builder Pasta.p σ GroupVar := do
  let isZero ← g.isZero
  let base ← isZero.select generator g
  let result ← multiple base.point
  isZero.select zero (⟨result⟩ : GroupVar)

def scale (g : GroupVar) (s : Expr Pasta.p) : Builder Pasta.p σ GroupVar :=
  g.scaleWith fun P => P.scale s

def scaleShifted (g : GroupVar) (t : ScalarVar) : Builder Pasta.p σ GroupVar :=
  g.scaleWith fun P => P.scaleShifted t highBits

def assertEqual (g h : GroupVar) : Builder Pasta.p σ Unit := do
  g.point.x.assertEqual h.point.x
  g.point.y.assertEqual h.point.y

def isEqual (g h : GroupVar) : Builder Pasta.p σ (BoolVar Pasta.p) := do
  let x ← g.point.x.isEqual h.point.x
  let y ← g.point.y.isEqual h.point.y
  x.and y

end GroupVar

end PallasCircuits
