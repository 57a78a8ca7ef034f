import PallasCircuits.Gadget.Logic

namespace PallasCircuits.BoolVar

open Builder

variable {n : Nat} [Modulus n] {σ : Type}

/-- `z - y = b · (x - y)` says that `z` is `x` for `b = 1` and `y` for `b = 0`. -/
def chooseVar (b : BoolVar n) (x y : Expr n) : Builder n σ (Expr n) := do
  let z : Expr n ← compute do
    if (← b.expr.value) = 1 then x.value else y.value
  assert (.product b.expr (x - y) (z - y))
  return z

def choose (b : BoolVar n) (x y : Expr n) : Builder n σ (Expr n) :=
  match b.expr.toConstant? with
  | some a => return if a = 1 then x else y
  | none =>
      match x.toConstant?, y.toConstant? with
      | some c, some d => return c • b.expr + d • (1 - b.expr)
      | _, _ => chooseVar b x y

def chooseEach (b : BoolVar n) : List (Expr n) → List (Expr n) → Builder n σ (List (Expr n))
  | x :: xs, y :: ys => do
      let z ← b.choose x y
      let zs ← b.chooseEach xs ys
      return z :: zs
  | _, _ => return []

variable {T V : Type} [CircuitType n T V]

/-- What is carried along is that of `x`, whatever `b` is. -/
def select (b : BoolVar n) (x y : T) : Builder n σ T := do
  let exprs ← b.chooseEach (CircuitType.toExprs x) (CircuitType.toExprs y)
  orAbort (CircuitType.ofExprs? (n := n) exprs (CircuitType.aux x))

def addEach (b : BoolVar n) : List (Expr n) → List (Expr n) → Builder n σ (List (Expr n))
  | sum :: sums, x :: xs => do
      let term ← b.expr.mul x
      let rest ← b.addEach sums xs
      return (sum + term) :: rest
  | sums, _ => return sums

def addSelected : List (Expr n) → List (BoolVar n × List (Expr n)) →
    Builder n σ (List (Expr n))
  | sums, [] => return sums
  | sums, (b, xs) :: rest => do
      addSelected (← b.addEach sums xs) rest

def switch (mask : List (BoolVar n)) (values : List T) : Builder n σ T := do
  if mask.length ≠ values.length ∨ values.isEmpty then
    failSetup (.length mask.length values.length)
  (Expr.sum (mask.map expr)).assertEqual 1
  let sums ← addSelected (List.replicate (CircuitType.size n T) 0)
    (mask.zip (values.map CircuitType.toExprs))
  let aux := (values.head?.map CircuitType.aux).getD (CircuitType.setupAux (n := n))
  orAbort (CircuitType.ofExprs? sums aux)

end PallasCircuits.BoolVar
