import PallasCircuits.Expr
import PallasCircuits.Fault

namespace PallasCircuits

inductive Constraint (n : Nat)
  | boolean (x : Expr n)
  | equal (x y : Expr n)
  | square (x y : Expr n)
  | product (x y z : Expr n)
  | addition (gate : AdditionGate (Expr n))
  | scaling (gate : ScalingGate (Expr n))
  | range64 (x : Expr n)
  | limbs (lo mid hi : Expr n)
deriving DecidableEq

def limbBits : Nat := 88

namespace Constraint

inductive Kind
  | generic
  | addition
  | scaling
  | range64
  | limbs
deriving DecidableEq

def Kind.all : List Kind :=
  [generic, addition, scaling, range64, limbs]

variable {n : Nat}

def kind : Constraint n → Kind
  | boolean _ | equal .. | square .. | product .. => .generic
  | addition _ => .addition
  | scaling _ => .scaling
  | range64 _ => .range64
  | limbs .. => .limbs

def rows : Constraint n → Nat
  | scaling gate => gate.rows
  | limbs .. => 4
  | _ => 1

variable [Modulus n]

/-! ### Checking

Operands are read in order, and only as far as the outcome needs them. -/

abbrev Check := Except Fault

def read (lookup : Nat → Option (Residue n)) (x : Expr n) : Check (Residue n) :=
  match x.eval? lookup with
  | some value => .ok value
  | none => .error .abort

def ensure (holds : Bool) (violation : Violation) : Check Unit :=
  if holds then .ok () else .error (.violation violation)

def checkWidth (bits : Nat) (x : Residue n) : Check Unit :=
  ensure (Binary.width x.val ≤ bits) (.tooWide x.val bits)

def checkAddition (gate : AdditionGate (Residue n)) : Check Unit :=
  match gate.flaw? with
  | none => .ok ()
  | some flaw => .error (.violation (.addition flaw))

def checkScaling (lookup : Nat → Option (Residue n)) (gate : ScalingGate (Expr n)) :
    Check Unit := do
  let bits ← gate.bits.mapM (read lookup)
  ensure (bits.all ScalingGate.isBit) (.scaling .bitsNotBoolean)
  let scalar ← read lookup gate.scalar
  ensure (ScalingGate.pack bits = scalar) (.scaling .bitsDoNotPack)
  let base ← gate.base.traverse (read lookup)
  match base.doubleAndAdd? (bits.map (· = 1)) with
  | none => .error (.violation (.scaling .degenerate))
  | some expected =>
      let result ← gate.result.traverse (read lookup)
      ensure (expected = result) (.scaling .result)

def check (lookup : Nat → Option (Residue n)) : Constraint n → Check Unit
  | boolean x => do
      let x ← read lookup x
      ensure (x = 1 ∨ x = 0) (.notBoolean x.val)
  | equal x y => do
      let x ← read lookup x
      let y ← read lookup y
      ensure (x = y) (.notEqual x.val y.val)
  | square x y => do
      let x ← read lookup x
      let y ← read lookup y
      ensure (x.square = y) (.notSquare x.val y.val)
  | product x y z => do
      let x ← read lookup x
      let y ← read lookup y
      let z ← read lookup z
      ensure (x * y = z) (.notProduct x.val y.val z.val)
  | addition gate => do
      let gate ← gate.traverse (read lookup)
      checkAddition gate
  | scaling gate => checkScaling lookup gate
  | range64 x => do
      let x ← read lookup x
      checkWidth 64 x
  | limbs lo mid hi => do
      let lo ← read lookup lo
      checkWidth limbBits lo
      let mid ← read lookup mid
      checkWidth limbBits mid
      let hi ← read lookup hi
      checkWidth limbBits hi

def Holds (assignment : Nat → Residue n) (constraint : Constraint n) : Prop :=
  constraint.check (fun i => some (assignment i)) = .ok ()

end Constraint

end PallasCircuits
