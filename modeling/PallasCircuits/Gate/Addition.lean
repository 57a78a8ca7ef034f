import PallasCircuits.Curve.Coordinates

namespace PallasCircuits

structure AdditionGate (α : Type) where
  left : Coordinates α
  right : Coordinates α
  sum : Coordinates α
  isInfinity : α
  sameX : α
  slope : α
  infinityInverse : α
  differenceInverse : α
deriving DecidableEq

inductive AdditionFlaw
  | sameX
  | slope
  | x
  | y
  | isInfinity
  | infinityInverse
deriving DecidableEq

namespace AdditionGate

def chosen {α : Type} (gate : AdditionGate α) : List α :=
  [gate.sameX, gate.isInfinity, gate.infinityInverse, gate.differenceInverse,
    gate.slope, gate.sum.x, gate.sum.y]

def ofChosen? {α : Type} (left right : Coordinates α) : List α → Option (AdditionGate α)
  | [sameX, isInfinity, infinityInverse, differenceInverse, slope, x, y] =>
      some ⟨left, right, ⟨x, y⟩, isInfinity, sameX, slope, infinityInverse, differenceInverse⟩
  | _ => none

def traverse {F : Type → Type} [Applicative F] {α β : Type}
    (f : α → F β) (gate : AdditionGate α) : F (AdditionGate β) :=
  AdditionGate.mk <$> gate.left.traverse f <*> gate.right.traverse f <*> gate.sum.traverse f
    <*> f gate.isInfinity <*> f gate.sameX <*> f gate.slope
    <*> f gate.infinityInverse <*> f gate.differenceInverse

variable {n : Nat} [Modulus n]

def flagsZero (z inverse flag : Residue n) : Bool :=
  inverse * z = 1 - flag ∧ flag * z = 0

/-- The chord rule where the x-coordinates differ, the tangent rule where they agree.
If the points are opposite, `sum` still has to follow the tangent rule, and only
`isInfinity` tells that it is not the sum. -/
def flaw? (gate : AdditionGate (Residue n)) : Option AdditionFlaw :=
  let P := gate.left
  let Q := gate.right
  let dx := Q.x - P.x
  let dy := Q.y - P.y
  let tangent := gate.slope.double * P.y - P.x.square.double - P.x.square
  let chord := dx * gate.slope - dy
  if !flagsZero dx gate.differenceInverse gate.sameX then some .sameX
  else if gate.sameX * tangent + (1 - gate.sameX) * chord ≠ 0 then some .slope
  else if gate.slope.square ≠ P.x + Q.x + gate.sum.x then some .x
  else if gate.slope * (P.x - gate.sum.x) - P.y ≠ gate.sum.y then some .y
  else if dy * (gate.sameX - gate.isInfinity) ≠ 0 then some .isInfinity
  else if dy * gate.infinityInverse ≠ gate.isInfinity then some .infinityInverse
  else none

def honest (P Q : Coordinates (Residue n)) : AdditionGate (Residue n) :=
  let sameX : Bool := P.x = Q.x
  let differenceInverse := (Q.x - P.x).invOrZero
  let slope :=
    if sameX then (P.x.square.double + P.x.square) * P.y.double.invOrZero
    else (Q.y - P.y) * differenceInverse
  { left := P
    right := Q
    sum := Coordinates.along slope P Q
    isInfinity := .ofBool (sameX && P.y ≠ Q.y)
    sameX := .ofBool sameX
    slope
    infinityInverse := if sameX then (Q.y - P.y).invOrZero else 0
    differenceInverse }

@[simp] theorem ofChosen?_chosen {α : Type} (gate : AdditionGate α) :
    ofChosen? gate.left gate.right gate.chosen = some gate := rfl

end AdditionGate

end PallasCircuits
