import PallasCircuits.Curve.Coordinates

namespace PallasCircuits

/-- The cells of `result = (2 · scalar + 1 + 2 ^ n) · base`, where the `n` cells of `bits`
are the digits of `scalar`, least significant first. -/
structure ScalingGate (α : Type) where
  base : Coordinates α
  scalar : α
  bits : List α
  result : Coordinates α
deriving DecidableEq

inductive ScalingFlaw
  | bitsNotBoolean
  | bitsDoNotPack
  | degenerate
  | result
deriving DecidableEq

namespace ScalingGate

variable {n : Nat} [Modulus n]

def isBit (x : Residue n) : Bool :=
  x = 0 ∨ x = 1

def pack : List (Residue n) → Residue n
  | [] => 0
  | bit :: bits => (pack bits).double + bit

def chosen (base : Coordinates (Residue n)) (scalar : Residue n) (count : Nat) :
    List (Residue n) :=
  let bits := Binary.digits count scalar.val
  let result := (base.doubleAndAdd? bits).getD 0
  result.x :: result.y :: bits.map .ofBool

def ofChosen? {α : Type} (base : Coordinates α) (scalar : α) : List α → Option (ScalingGate α)
  | x :: y :: bits => some ⟨base, scalar, bits, ⟨x, y⟩⟩
  | _ => none

def rows {α : Type} (gate : ScalingGate α) : Nat :=
  2 * ((gate.bits.length + 4) / 5)

@[simp] theorem pack_nil : pack ([] : List (Residue n)) = 0 := rfl

@[simp] theorem pack_cons (bit : Residue n) (bits : List (Residue n)) :
    pack (bit :: bits) = (pack bits).double + bit := rfl

@[simp] theorem length_chosen (base : Coordinates (Residue n)) (scalar : Residue n)
    (count : Nat) : (chosen base scalar count).length = count + 2 := by
  simp [chosen]

end ScalingGate

end PallasCircuits
