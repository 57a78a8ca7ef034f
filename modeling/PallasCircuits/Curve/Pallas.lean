import PallasCircuits.Curve.Coordinates
import PallasCircuits.Field.Pasta

namespace PallasCircuits

/-- A point of `y² = x³ + 5` over `Fp`. The pair of coordinates is not required to
satisfy the equation: the operations follow the chord and tangent rules on any pair. -/
inductive Pallas
  | infinity
  | affine (point : Coordinates Fp)
deriving DecidableEq

namespace Pallas

def b : Fp := (5 : Nat)

def generator : Pallas :=
  affine ⟨1, (12418654782883325593414442427049395787963493412651469444558597405572177144507 : Nat)⟩

def toCoordinates : Pallas → Coordinates Fp
  | infinity => 0
  | affine P => P

def ofCoordinates (P : Coordinates Fp) : Pallas :=
  if P = 0 then infinity else affine P

def isOnCurve : Pallas → Bool
  | infinity => true
  | affine P => P.y.square = P.x.square * P.x + b

protected def neg : Pallas → Pallas
  | infinity => infinity
  | affine P => affine (-P)

def double : Pallas → Pallas
  | infinity => infinity
  | affine P =>
      match P.double? with
      | some R => affine R
      | none => infinity

protected def add : Pallas → Pallas → Pallas
  | infinity, Q => Q
  | P, infinity => P
  | affine P, affine Q =>
      match P.addIncomplete? Q with
      | some R => affine R
      | none => if P.y = Q.y then double (affine P) else infinity

instance : Zero Pallas := ⟨infinity⟩

instance : Neg Pallas := ⟨Pallas.neg⟩

instance : Add Pallas := ⟨Pallas.add⟩

instance : Sub Pallas := ⟨fun P Q => P + -Q⟩

def scale (P : Pallas) (k : Nat) : Pallas :=
  Binary.ladder double (· + P) 0 k

@[simp] theorem toCoordinates_affine (P : Coordinates Fp) : (affine P).toCoordinates = P := rfl

@[simp] theorem toCoordinates_zero : (0 : Pallas).toCoordinates = 0 := rfl

@[simp] theorem ofCoordinates_zero : ofCoordinates 0 = 0 := rfl

theorem toCoordinates_ofCoordinates (P : Coordinates Fp) :
    (ofCoordinates P).toCoordinates = P := by
  unfold ofCoordinates
  split
  · next h => exact h.symm
  · rfl

@[simp] theorem zero_add (P : Pallas) : 0 + P = P := by
  cases P <;> rfl

@[simp] theorem add_zero (P : Pallas) : P + 0 = P := by
  cases P <;> rfl

end Pallas

end PallasCircuits
