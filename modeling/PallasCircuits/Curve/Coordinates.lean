import PallasCircuits.Field.Power

namespace PallasCircuits

structure Coordinates (α : Type) where
  x : α
  y : α
deriving DecidableEq

namespace Coordinates

def toList {α : Type} (P : Coordinates α) : List α :=
  [P.x, P.y]

def traverse {F : Type → Type} [Applicative F] {α β : Type}
    (f : α → F β) (P : Coordinates α) : F (Coordinates β) :=
  Coordinates.mk <$> f P.x <*> f P.y

variable {n : Nat} [Modulus n]

instance : Zero (Coordinates (Residue n)) := ⟨⟨0, 0⟩⟩

instance : Neg (Coordinates (Residue n)) := ⟨fun P => ⟨P.x, -P.y⟩⟩

/-! Chords and tangents of the curves `y² = x³ + b`. The formulas never mention `b`. -/

/-- The reflected third point of the curve on the line of this slope through `P` and `Q`. -/
def along (slope : Residue n) (P Q : Coordinates (Residue n)) : Coordinates (Residue n) :=
  let x := slope.square - P.x - Q.x
  ⟨x, slope * (P.x - x) - P.y⟩

def chordSlope? (P Q : Coordinates (Residue n)) : Option (Residue n) :=
  (Q.x - P.x).inv?.map fun inverse => (Q.y - P.y) * inverse

def tangentSlope? (P : Coordinates (Residue n)) : Option (Residue n) :=
  P.y.double.inv?.map fun inverse => (P.x.square.double + P.x.square) * inverse

def addIncomplete? (P Q : Coordinates (Residue n)) : Option (Coordinates (Residue n)) :=
  (P.chordSlope? Q).map fun slope => along slope P Q

def double? (P : Coordinates (Residue n)) : Option (Coordinates (Residue n)) :=
  P.tangentSlope?.map fun slope => along slope P P

/-- Starting from `2 · base`, each digit from the most significant one down takes
`acc` to `(acc ± base) + acc`, with plus for a one. Both additions are incomplete,
and undefined as soon as one of them is. -/
def doubleAndAdd? (base : Coordinates (Residue n)) :
    List Bool → Option (Coordinates (Residue n))
  | [] => base.double?
  | bit :: bits => do
      let acc ← base.doubleAndAdd? bits
      let next ← acc.addIncomplete? (if bit then base else -base)
      next.addIncomplete? acc

@[simp] theorem toList_mk {α : Type} (x y : α) : (Coordinates.mk x y).toList = [x, y] := rfl

@[simp] theorem doubleAndAdd?_nil (base : Coordinates (Residue n)) :
    base.doubleAndAdd? [] = base.double? := rfl

@[simp] theorem neg_x (P : Coordinates (Residue n)) : (-P).x = P.x := rfl

@[simp] theorem neg_y (P : Coordinates (Residue n)) : (-P).y = -P.y := rfl

theorem addIncomplete?_eq_none_iff (P Q : Coordinates (Residue n)) :
    P.addIncomplete? Q = none ↔ Q.x - P.x = 0 := by
  simp [addIncomplete?, chordSlope?, Residue.inv?_eq_none_iff]

theorem double?_eq_none_iff (P : Coordinates (Residue n)) :
    P.double? = none ↔ P.y.double = 0 := by
  simp [double?, tangentSlope?, Residue.inv?_eq_none_iff]

end Coordinates

end PallasCircuits
