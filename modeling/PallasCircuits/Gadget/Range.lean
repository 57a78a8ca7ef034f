import PallasCircuits.Gadget.Selection

namespace PallasCircuits.Expr

open Builder Binary

variable {n : Nat} [Modulus n] {σ : Type}

def isShortConstant (bits : Nat) (x : Expr n) : Bool :=
  match x.toConstant? with
  | some a => width a.val ≤ bits
  | none => false

def assert64 (x : Expr n) : Builder n σ Unit :=
  if x.isShortConstant 64 then pure () else assert (.range64 x)

/-- With `x < 2 ^ 64`, the product `2 ^ (64 - bits) · x` does not wrap around, and is
below `2 ^ 64` just if `x < 2 ^ bits`. -/
def assertChunk (x : Expr n) (bits : Nat) : Builder n σ Unit := do
  x.assert64
  if bits < 64 then
    ((.twoPow (64 - bits) : Residue n) • x).assert64

def assertWidth (x : Expr n) (bits : Nat) : Builder n σ Unit := do
  if 128 < bits then
    failSetup (.bitLength bits 128)
  else if bits ≤ 64 then
    x.assertChunk bits
  else
    let (lo, hi) : Expr n × Expr n ← compute do
      let a ← x.value
      return (.ofNat (a.val % twoPow 64), .ofNat (a.val / twoPow 64))
    x.assertEqual (lo + (.twoPow 64 : Residue n) • hi)
    lo.assert64
    hi.assertChunk (bits - 64)

/-- Asserts `x ≤ bound`. The 128 low bits are only compared when the high ones agree. -/
def assertAtMostVar (x : Expr n) (bound : Nat) : Builder n σ Unit := do
  let hiBits := width bound - 128
  let (lo, hi) : Expr n × Expr n ← compute do
    let a ← x.value
    return (.ofNat (a.val % twoPow 128), .ofNat (a.val / twoPow 128))
  lo.assertWidth 128
  hi.assertWidth hiBits
  x.assertEqual (lo + (.twoPow 128 : Residue n) • hi)
  let hiGap := .const (.ofNat (bound / twoPow 128)) - hi
  hiGap.assertWidth hiBits
  let tie ← hiGap.isEqual 0
  let loGap := .const (.ofNat (bound % twoPow 128)) - lo
  (← tie.choose loGap 0).assertWidth 128

def assertAtMost (x : Expr n) (bound : Nat) : Builder n σ Unit :=
  let most := width n - 1
  if most < width bound then
    failSetup (.bitLength (width bound) most)
  else
    match x.toConstant? with
    | some a =>
        if a.val ≤ bound then pure () else failSetup (.notAtMost a.val bound)
    | none => x.assertAtMostVar bound

/-- `x = parity + 2 · half` has two solutions modulo an odd `n`, one of which wraps
around. It is ruled out by `half + parity ≤ (n - 1) / 2`. -/
def halveVar (x : Expr n) : Builder n σ (BoolVar n × Expr n) := do
  let (parity, half) : BoolVar n × Expr n ← compute do
    let a ← x.value
    return (a.val.testBit 0, .ofNat (a.val / 2))
  x.assertEqual (parity.expr + ((2 : Nat) : Residue n) • half)
  half.assertAtMost ((n - 1) / 2)
  let extreme ← half.isEqual (.const (.ofNat ((n - 1) / 2)))
  assert (.product parity.expr extreme.expr 0)
  return (parity, half)

def halve (x : Expr n) : Builder n σ (BoolVar n × Expr n) :=
  match x.toConstant? with
  | some a => return (.constant (a.val.testBit 0), .const (.ofNat (a.val / 2)))
  | none => x.halveVar

end PallasCircuits.Expr
