import PallasCircuits.Gadget.Selection

namespace PallasCircuits

abbrev PointVar (n : Nat) := Coordinates (Expr n)

namespace PointVar

open Builder

variable {n : Nat} [Modulus n] {σ : Type}

def constant (P : Coordinates (Residue n)) : PointVar n :=
  ⟨.const P.x, .const P.y⟩

def zero : PointVar n :=
  constant 0

def wire (P : PointVar n) : Builder n σ (PointVar n) := do
  return ⟨← P.x.wire, ← P.y.wire⟩

def neg (P : PointVar n) : PointVar n :=
  ⟨P.x, -P.y⟩

def addVar (P Q : PointVar n) : Builder n σ (PointVar n × BoolVar n) := do
  let cells ← declare 7 <| reading do
    return (AdditionGate.honest (← CircuitType.read P) (← CircuitType.read Q)).chosen
  let gate ← orAbort (AdditionGate.ofChosen? P Q cells)
  let isInfinity ← gate.isInfinity.assertBool
  let P ← wire P
  let Q ← wire Q
  assert (.addition { gate with left := P, right := Q })
  return (gate.sum, isInfinity)

/-- The sum, and whether it is at infinity. In that case its coordinates mean nothing. -/
def add (P Q : PointVar n) : Builder n σ (PointVar n × BoolVar n) :=
  match CircuitType.constantValue? (n := n) P, CircuitType.constantValue? (n := n) Q with
  | some a, some b =>
      let gate := AdditionGate.honest a b
      return (constant gate.sum, .constant (gate.isInfinity = 1))
  | _, _ => addVar P Q

def addFinite (P Q : PointVar n) : Builder n σ (PointVar n) := do
  let (sum, isInfinity) ← add P Q
  isInfinity.assertFalse
  return sum

/-- `(2 · scalar + 1 + 2 ^ count) · base`, and the `count` digits of `scalar`. Fails if
the scalar has more digits, or if an addition on the way is degenerate. -/
def scaleUnpack (base : PointVar n) (scalar : Expr n) (count : Nat) :
    Builder n σ (PointVar n × List (Expr n)) := do
  let base ← wire base
  let scalar ← scalar.wire
  let cells ← declare (2 + count) <| reading do
    let P ← CircuitType.read base
    return ScalingGate.chosen P (← scalar.value) count
  let gate ← orAbort (ScalingGate.ofChosen? base scalar cells)
  assert (.scaling gate)
  return (gate.result, gate.bits)

end PointVar

end PallasCircuits
