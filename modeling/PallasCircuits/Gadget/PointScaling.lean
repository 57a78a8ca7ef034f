import PallasCircuits.Gadget.Scalar

namespace PallasCircuits.PointVar

open Builder Binary

variable {σ : Type}

/-! Multiples of a point of Pallas other than infinity. The double-and-add of the gate
degenerates for a few scalars, for which the result is selected instead. -/

def scaleConstant (P : Coordinates Fp) (s : Fq) : Coordinates Fp :=
  ((Pallas.ofCoordinates P).scale s.val).toCoordinates

def assertZeros (xs : List (Expr Pasta.p)) : Builder Pasta.p σ Unit :=
  xs.forM fun x => x.assertEqual 0

/-- The degenerate scalars are zero and one, those whose half is zero. -/
def scaleVar (P : PointVar Pasta.p) (s : Expr Pasta.p) :
    Builder Pasta.p σ (PointVar Pasta.p) := do
  let (parity, half, t) ← ScalarVar.ofExprParts s
  let degenerate ← half.isEqual 0
  let hi ← degenerate.choose 0 t.hi
  let (R, bits) ← scaleUnpack P hi 255
  assertZeros (bits.drop highBits)
  let R' ← addFinite R (neg P)
  let R ← t.lo.select R R'
  let small ← parity.select P zero
  degenerate.select small R

def scale (P : PointVar Pasta.p) (s : Expr Pasta.p) :
    Builder Pasta.p σ (PointVar Pasta.p) :=
  match CircuitType.constantValue? (n := Pasta.p) P, s.toConstant? with
  | some a, some k => return constant (scaleConstant a (.ofNat k.val))
  | _, _ => scaleVar P s

/-- The high part for which `2 · hi + 1 + 2 ^ 255` is one modulo `q`. The one before it
gives minus one. -/
def degenerateHigh : Nat :=
  Pasta.q - twoPow highBits

def scaleShiftedVar (P : PointVar Pasta.p) (t : ScalarVar) (count : Nat) :
    Builder Pasta.p σ (PointVar Pasta.p) := do
  let high : Fp := .ofNat degenerateHigh
  let isOne ← t.hi.isEqual (.const high)
  let isMinusOne ← t.hi.isEqual (.const (high - 1))
  let degenerate ← isOne.or isMinusOne
  if count < width degenerateHigh then
    degenerate.assertFalse
  let hi ← degenerate.choose 0 t.hi
  let (R, bits) ← scaleUnpack P hi 255
  assertZeros (bits.drop count)
  let y ← P.y.mul (((2 : Nat) : Fp) • isOne.expr - 1)
  let R ← degenerate.select ⟨P.x, y⟩ R
  let (R', isInfinity) ← add R (neg P)
  let R' ← isInfinity.select zero R'
  t.lo.select R R'

def scaleShifted (P : PointVar Pasta.p) (t : ScalarVar) (count : Nat) :
    Builder Pasta.p σ (PointVar Pasta.p) :=
  if highBits < count then
    failSetup (.bitLength count highBits)
  else
    match CircuitType.constantValue? (n := Pasta.p) P,
      CircuitType.constantValue? (n := Pasta.p) t with
    | some a, some s => return constant (scaleConstant a s)
    | _, _ => scaleShiftedVar P t count

end PallasCircuits.PointVar
