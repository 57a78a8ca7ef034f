import PallasCircuits.Curve.Pallas
import PallasCircuits.Gadget.Limbs
import PallasCircuits.Gadget.PointAddition

namespace PallasCircuits

/-- A scalar of Pallas in shifted form: it stands for `2 · hi + lo + 2 ^ 255`. -/
structure ScalarVar where
  lo : BoolVar Pasta.p
  hi : Expr Pasta.p
deriving DecidableEq

def highBits : Nat := 254

namespace ScalarVar

open Builder Binary

variable {σ : Type}

def shift (s : Fq) : Bool × Nat :=
  let t := (s - .twoPow 255).val
  (t.testBit 0, t / 2)

def unshift (lo hi : Fp) : Fq :=
  .ofNat (lo.val + 2 * hi.val + twoPow 255)

instance : CircuitType Pasta.p ScalarVar Fq where
  Aux := Unit
  setupAux := ()
  size := 2
  toExprs t := [t.lo.expr, t.hi]
  aux _ := ()
  ofExprs?
    | [lo, hi], _ => some ⟨⟨lo⟩, hi⟩
    | _, _ => none
  encode s := [.ofBool (shift s).1, .ofNat (shift s).2]
  valueAux _ := ()
  decode?
    | [lo, hi], _ => some (unshift lo hi)
    | _, _ => none
  check t := CircuitType.check (n := Pasta.p) t.lo

def constant (s : Fq) : ScalarVar :=
  ⟨.constant (shift s).1, .const (.ofNat (shift s).2)⟩

def offset : Nat :=
  (Pasta.q - twoPow 255 % Pasta.q) % Pasta.q

/-- The parity and the half of `s`, and its shifted form. The latter is their sum with
the parity and the half of `offset`, and not reduced modulo `q`. -/
def ofExprParts (s : Expr Pasta.p) :
    Builder Pasta.p σ (BoolVar Pasta.p × Expr Pasta.p × ScalarVar) := do
  let offsetLo : Fp := .ofBool (offset.testBit 0)
  let offsetHi : Fp := .ofNat (offset / 2)
  let (parity, half) ← s.halve
  let carry ← (offsetLo • parity.expr).wire
  let lo ← (parity.expr + .const offsetLo - ((2 : Nat) : Fp) • carry).assertBool
  let hi ← (half + .const offsetHi + carry).wire
  return (parity, half, ⟨lo, hi⟩)

def ofExpr (s : Expr Pasta.p) : Builder Pasta.p σ ScalarVar :=
  match s.toConstant? with
  | some a => return constant (.ofNat a.val)
  | none => do
      let (_, _, t) ← ofExprParts s
      return t

def ofLimbsVar (s : Limbs (Expr Pasta.p)) : Builder Pasta.p σ ScalarVar := do
  s.assertLess Pasta.q
  let t ← s.sub (.constant (twoPow 255 % Pasta.q)) Pasta.q
  t.assertLess Pasta.q
  let (lo, mid, hi) : BoolVar Pasta.p × Expr Pasta.p × Expr Pasta.p ← compute do
    let a ← t.lo.value
    let half := a.val / 2
    return (a.val.testBit 0, .ofNat (half % twoPow 64), .ofNat (half / twoPow 64))
  mid.assert64
  hi.assertWidth (limbBits - 65)
  let halfLo := mid + (.twoPow 64 : Fp) • hi
  t.lo.assertEqual (lo.expr + ((2 : Nat) : Fp) • halfLo)
  let half ← (halfLo + (.twoPow (limbBits - 1) : Fp) • t.mid
    + (.twoPow (2 * limbBits - 1) : Fp) • t.hi).wire
  return ⟨lo, half⟩

/-- The shifted form of a scalar given by limbs in range. The scalar is asserted to be
below `q`, and so is its shifted form: otherwise it would have a second one. -/
def ofLimbs (s : Limbs (Expr Pasta.p)) : Builder Pasta.p σ ScalarVar :=
  match CircuitType.constantValue? (n := Pasta.p) s with
  | some a =>
      if a < Pasta.q then return constant (.ofNat a)
      else failSetup (.notBelow a Pasta.q)
  | none => ofLimbsVar s

end ScalarVar

end PallasCircuits
