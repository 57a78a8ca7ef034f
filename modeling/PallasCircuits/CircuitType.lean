import PallasCircuits.Builder

namespace PallasCircuits

/-- A type `T` of values inside a circuit over `Residue n`, standing for values of type
`V` outside of it. Both are lists of `size` field elements in disguise, and may carry data
along that the circuit knows nothing of. -/
class CircuitType (n : Nat) (T : Type) (V : outParam Type) where
  Aux : Type
  /-- What is carried along where there is no value to take it from. -/
  setupAux : Aux
  size : Nat
  toExprs : T → List (Expr n)
  aux : T → Aux
  ofExprs? : List (Expr n) → Aux → Option T
  encode : V → List (Residue n)
  valueAux : V → Aux
  decode? : List (Residue n) → Aux → Option V
  check {σ : Type} : T → Builder n σ Unit

structure BoolVar (n : Nat) where
  expr : Expr n
deriving DecidableEq

namespace CircuitType

section

variable {n : Nat} [Modulus n] {T V : Type} [CircuitType n T V]

def read (x : T) : Reading n V :=
  fun lookup => do
    let fields ← (toExprs (n := n) x).mapM fun expr => expr.eval? lookup
    decode? (T := T) fields (aux x)

def constantValue? (x : T) : Option V := do
  let fields ← (toExprs (n := n) x).mapM Expr.toConstant?
  decode? (T := T) fields (aux x)

def ofValue? (n : Nat) (T : Type) {V : Type} [CircuitType n T V] (value : V) : Option T :=
  ofExprs? ((encode (n := n) T value).map .const) (valueAux (n := n) (T := T) value)

end

variable {n : Nat} [Modulus n]

instance : CircuitType n Unit Unit where
  Aux := Unit
  setupAux := ()
  size := 0
  toExprs _ := []
  aux _ := ()
  ofExprs? _ _ := some ()
  encode _ := []
  valueAux _ := ()
  decode? _ _ := some ()
  check _ := pure ()

instance : CircuitType n (Expr n) (Residue n) where
  Aux := Unit
  setupAux := ()
  size := 1
  toExprs x := [x]
  aux _ := ()
  ofExprs?
    | [x], _ => some x
    | _, _ => none
  encode a := [a]
  valueAux _ := ()
  decode?
    | [a], _ => some a
    | _, _ => none
  check _ := pure ()

instance : CircuitType n (BoolVar n) Bool where
  Aux := Unit
  setupAux := ()
  size := 1
  toExprs b := [b.expr]
  aux _ := ()
  ofExprs?
    | [x], _ => some ⟨x⟩
    | _, _ => none
  encode b := [.ofBool b]
  valueAux _ := ()
  decode?
    | [a], _ => some (a ≠ 0)
    | _, _ => none
  check b := Builder.assert (.boolean b.expr)

instance {k : Nat} : CircuitType n (Vector (Expr n) k) (Vector (Residue n) k) where
  Aux := Unit
  setupAux := ()
  size := k
  toExprs xs := xs.toList
  aux _ := ()
  ofExprs? xs _ := if h : xs.length = k then some ⟨xs.toArray, by simpa using h⟩ else none
  encode as := as.toList
  valueAux _ := ()
  decode? as _ := if h : as.length = k then some ⟨as.toArray, by simpa using h⟩ else none
  check _ := pure ()

instance : CircuitType n (Coordinates (Expr n)) (Coordinates (Residue n)) where
  Aux := Unit
  setupAux := ()
  size := 2
  toExprs P := P.toList
  aux _ := ()
  ofExprs?
    | [x, y], _ => some ⟨x, y⟩
    | _, _ => none
  encode P := P.toList
  valueAux _ := ()
  decode?
    | [x, y], _ => some ⟨x, y⟩
    | _, _ => none
  check _ := pure ()

/-- The elements of the first component come first. When decoding, what the second
component makes of the remaining elements is up to it. -/
instance {T₁ T₂ V₁ V₂ : Type} [CircuitType n T₁ V₁] [CircuitType n T₂ V₂] :
    CircuitType n (T₁ × T₂) (V₁ × V₂) where
  Aux := Aux n T₁ × Aux n T₂
  setupAux := (setupAux, setupAux)
  size := size n T₁ + size n T₂
  toExprs x := toExprs x.1 ++ toExprs x.2
  aux x := (aux x.1, aux x.2)
  ofExprs? xs aux :=
    if xs.length = size n T₁ + size n T₂ then do
      let x₁ ← ofExprs? (xs.take (size n T₁)) aux.1
      let x₂ ← ofExprs? (xs.drop (size n T₁)) aux.2
      return (x₁, x₂)
    else none
  encode v := encode T₁ v.1 ++ encode T₂ v.2
  valueAux v := (valueAux v.1, valueAux v.2)
  decode? as aux :=
    if size n T₁ ≤ as.length then do
      let v₁ ← decode? (T := T₁) (as.take (size n T₁)) aux.1
      let v₂ ← decode? (T := T₂) (as.drop (size n T₁)) aux.2
      return (v₁, v₂)
    else none
  check x := do
    check (n := n) x.1
    check (n := n) x.2

end CircuitType

end PallasCircuits
