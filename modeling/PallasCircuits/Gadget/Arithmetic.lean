import PallasCircuits.Witness

namespace PallasCircuits

def BoolVar.constant {n : Nat} [Modulus n] (b : Bool) : BoolVar n :=
  ⟨.const (.ofBool b)⟩

namespace Expr

open Builder

variable {n : Nat} [Modulus n] {σ : Type}

/-! Arithmetic on expressions. Each operation first looks for a result that needs no
constraint, and introduces a variable for the result only if there is none. -/

def mulVar (x y : Expr n) : Builder n σ (Expr n) := do
  let z : Expr n ← compute do
    return (← x.value) * (← y.value)
  assert (.product x y z)
  return z

def mul (x y : Expr n) : Builder n σ (Expr n) :=
  match x.toConstant?, y.toConstant? with
  | some a, some b => return .const (a * b)
  | some a, none => return a • y
  | none, some b => return b • x
  | none, none => mulVar x y

def squareVar (x : Expr n) : Builder n σ (Expr n) := do
  let y : Expr n ← compute do
    return (← x.value).square
  assert (.square x y)
  return y

def square (x : Expr n) : Builder n σ (Expr n) :=
  match x.toConstant? with
  | some a => return .const a.square
  | none => squareVar x

def wireVar (x : Expr n) : Builder n σ (Expr n) := do
  let y : Expr n ← compute x.value
  assert (.equal x y)
  return y

def wire (x : Expr n) : Builder n σ (Expr n) :=
  match x with
  | const _ | var _ => return x
  | _ =>
      match x.toConstant? with
      | some a => return .const a
      | none => wireVar x

/-- `flag` is one for `z = 0` and zero otherwise, where `inverse * z = 1` shows `z ≠ 0`. -/
def isZeroVar (z : Expr n) : Builder n σ (BoolVar n) := do
  let (flag, inverse) : Expr n × Expr n ← compute do
    match (← z.value).inv? with
    | some inverse => return (0, inverse)
    | none => return (1, 0)
  assert (.product inverse z (1 - flag))
  assert (.product flag z 0)
  return ⟨flag⟩

def isEqual (x y : Expr n) : Builder n σ (BoolVar n) :=
  let z := x - y
  match z.toConstant? with
  | some a => return .constant (a = 0)
  | none => isZeroVar z

def assertEqual (x y : Expr n) : Builder n σ Unit :=
  match x.toConstant?, y.toConstant? with
  | some a, some b =>
      if a = b then pure () else failSetup (.unequalConstants a.val b.val)
  | _, _ => assert (.equal x y)

def assertBool (x : Expr n) : Builder n σ (BoolVar n) :=
  match x.toConstant? with
  | some a =>
      if a = 0 ∨ a = 1 then return ⟨x⟩ else failSetup (.notBoolean a.val)
  | none => do
      assert (.boolean x)
      return ⟨x⟩

end Expr

end PallasCircuits
