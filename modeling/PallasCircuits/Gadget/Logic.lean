import PallasCircuits.Gadget.Arithmetic

namespace PallasCircuits.BoolVar

open Builder

variable {n : Nat} [Modulus n] {σ : Type}

def toConstant? (x : BoolVar n) : Option Bool :=
  x.expr.toConstant?.map (· = 1)

protected def not (x : BoolVar n) : BoolVar n :=
  ⟨1 - x.expr⟩

protected def and (x y : BoolVar n) : Builder n σ (BoolVar n) := do
  return ⟨← x.expr.mul y.expr⟩

protected def or (x y : BoolVar n) : Builder n σ (BoolVar n) := do
  return (← x.not.and y.not).not

/-- Three or more bits are all zero just if their sum is, as long as there are fewer
than `n` of them. -/
def any : List (BoolVar n) → Builder n σ (BoolVar n)
  | [] => return constant false
  | [x] => return x
  | [x, y] => x.or y
  | xs => do
      let allZero ← (Expr.sum (xs.map expr)).isEqual 0
      return allZero.not

def all : List (BoolVar n) → Builder n σ (BoolVar n)
  | [] => return constant true
  | [x] => return x
  | [x, y] => x.and y
  | xs => (Expr.sum (xs.map expr)).isEqual (.const xs.length)

/-- For bits, `2 · x · y = x + y - z` says that `z` is their exclusive or. -/
def xorVar (x y : BoolVar n) : Builder n σ (BoolVar n) := do
  let z : BoolVar n ← computeUnchecked do
    return (← CircuitType.read x) != (← CircuitType.read y)
  assert (.product (x.expr + x.expr) y.expr (x.expr + y.expr - z.expr))
  return z

protected def xor (x y : BoolVar n) : Builder n σ (BoolVar n) :=
  match x.toConstant?, y.toConstant? with
  | some true, _ => return y.not
  | _, some true => return x.not
  | some false, _ => return y
  | _, some false => return x
  | none, none => xorVar x y

def assertTrue (x : BoolVar n) : Builder n σ Unit :=
  x.expr.assertEqual 1

def assertFalse (x : BoolVar n) : Builder n σ Unit :=
  x.expr.assertEqual 0

end PallasCircuits.BoolVar
