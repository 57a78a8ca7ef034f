import PallasCircuits.Field.Power

namespace PallasCircuits

inductive Expr (n : Nat)
  | const (value : Residue n)
  | var (index : Nat)
  | add (left right : Expr n)
  | scale (factor : Residue n) (body : Expr n)
deriving DecidableEq

/-- A constant plus a list of coefficients with their variables. Coefficients may be
zero and variables may repeat. -/
structure Affine (n : Nat) where
  constant : Residue n
  terms : List (Residue n × Nat)
deriving DecidableEq

def Affine.constant? {n : Nat} [Modulus n] (a : Affine n) : Option (Residue n) :=
  if a.constant = 0 then none else some a.constant

namespace Expr

variable {n : Nat} [Modulus n]

instance : Inhabited (Expr n) := ⟨const 0⟩

instance : Zero (Expr n) := ⟨const 0⟩

instance : One (Expr n) := ⟨const 1⟩

/-! ### Evaluation -/

def eval (assignment : Nat → Residue n) : Expr n → Residue n
  | const c => c
  | var i => assignment i
  | add a b => a.eval assignment + b.eval assignment
  | scale k x => k * x.eval assignment

def accumulate (assignment : Nat → Residue n) (factor : Residue n) :
    Expr n → Residue n → Residue n
  | const c, total => total + factor * c
  | var i, total => total + factor * assignment i
  | add a b, total => accumulate assignment factor b (accumulate assignment factor a total)
  | scale k x, total => accumulate assignment (factor * k) x total

def eval? (lookup : Nat → Option (Residue n)) : Expr n → Option (Residue n)
  | const c => some c
  | var i => lookup i
  | add a b => do
      let x ← a.eval? lookup
      let y ← b.eval? lookup
      return x + y
  | scale k x => (x.eval? lookup).map (k * ·)

def Below (bound : Nat) : Expr n → Prop
  | const _ => True
  | var i => i < bound
  | add a b => a.Below bound ∧ b.Below bound
  | scale _ x => x.Below bound

protected def toString : Expr n → String
  | const c => toString c
  | var i => "v" ++ toString i
  | add a b => "(" ++ a.toString ++ "+" ++ b.toString ++ ")"
  | scale k x => toString k ++ "*" ++ x.toString

instance : ToString (Expr n) := ⟨Expr.toString⟩

/-! ### Terms -/

def collect (factor : Residue n) : Expr n → Affine n → Affine n
  | const c, acc => { acc with constant := acc.constant + factor * c }
  | var i, acc => { acc with terms := (factor, i) :: acc.terms }
  | add a b, acc => collect factor b (collect factor a acc)
  | scale k x, acc => collect (factor * k) x acc

def affine (x : Expr n) : Affine n :=
  collect 1 x ⟨0, []⟩

def toConstant? (x : Expr n) : Option (Residue n) :=
  if x.affine.terms.isEmpty then some x.affine.constant else none

/-! ### Operations

Constants are folded, zeros and ones dropped, and nested factors merged. -/

protected def plus : Expr n → Expr n → Expr n
  | const a, const b => const (a + b)
  | const a, y => if a = 0 then y else add (const a) y
  | x, const b => if b = 0 then x else add x (const b)
  | x, y => add x y

instance : Add (Expr n) := ⟨Expr.plus⟩

protected def times (k : Residue n) (x : Expr n) : Expr n :=
  if k = 0 then 0
  else if k = 1 then x
  else match x with
    | const c => const (c * k)
    | scale j y => scale (j * k) y
    | x => scale k x

instance : SMul (Residue n) (Expr n) := ⟨Expr.times⟩

instance : Neg (Expr n) := ⟨fun x => (-1 : Residue n) • x⟩

protected def minus : Expr n → Expr n → Expr n
  | const a, const b => const (a - b)
  | x, y => x + (-y)

instance : Sub (Expr n) := ⟨Expr.minus⟩

def linearCombination (terms : List (Residue n × Expr n)) : Expr n :=
  terms.foldl (fun acc term => acc + term.1 • term.2) 0

def sum (xs : List (Expr n)) : Expr n :=
  xs.foldl (· + ·) 0

@[simp] theorem eval_const (ρ : Nat → Residue n) (c : Residue n) : (const c).eval ρ = c := rfl

@[simp] theorem eval_var (ρ : Nat → Residue n) (i : Nat) : (var i : Expr n).eval ρ = ρ i := rfl

@[simp] theorem eval_add (ρ : Nat → Residue n) (a b : Expr n) :
    (add a b).eval ρ = a.eval ρ + b.eval ρ := rfl

@[simp] theorem eval_scale (ρ : Nat → Residue n) (k : Residue n) (x : Expr n) :
    (scale k x).eval ρ = k * x.eval ρ := rfl

theorem eval?_some (ρ : Nat → Residue n) (x : Expr n) :
    x.eval? (fun i => some (ρ i)) = some (x.eval ρ) := by
  induction x with
  | const _ => rfl
  | var _ => rfl
  | add a b iha ihb => simp [eval?, iha, ihb]
  | scale k x ih => simp [eval?, ih]

end Expr

end PallasCircuits
