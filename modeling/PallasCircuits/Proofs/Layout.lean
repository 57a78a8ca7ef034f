import PallasCircuits.Proofs.Eager
import PallasCircuits.Proofs.Gadget.Composed
import PallasCircuits.Proofs.Gadget.Scalar

namespace PallasCircuits

variable {n : Nat}

/-! The types of circuit values, built from the basic ones by pairing. What holds of all of them is
proved for the basic types one by one, and carried over to pairs once. -/

/-- How a value of a circuit over `Residue n` is made up. Points of Pallas and their scalars only
fit into circuits over its base field. -/
inductive Layout : Nat → Type
  | unit {n : Nat} : Layout n
  | field {n : Nat} : Layout n
  | bool {n : Nat} : Layout n
  | array {n : Nat} (k : Nat) : Layout n
  | limbs {n : Nat} : Layout n
  | point {n : Nat} : Layout n
  | group : Layout Pasta.p
  | scalar : Layout Pasta.p
  | pair {n : Nat} (a b : Layout n) : Layout n

namespace Layout

def Var : {n : Nat} → Layout n → Type
  | _, unit => Unit
  | n, field => Expr n
  | n, bool => BoolVar n
  | n, array k => Vector (Expr n) k
  | n, limbs => Limbs (Expr n)
  | n, point => Coordinates (Expr n)
  | _, group => GroupVar
  | _, scalar => ScalarVar
  | _, pair a b => a.Var × b.Var

def Value : {n : Nat} → Layout n → Type
  | _, unit => Unit
  | n, field => Residue n
  | _, bool => Bool
  | n, array k => Vector (Residue n) k
  | _, limbs => Nat
  | n, point => Coordinates (Residue n)
  | _, group => Pallas
  | _, scalar => Fq
  | _, pair a b => a.Value × b.Value

instance circuitType : {n : Nat} → [Modulus n] → (t : Layout n) → CircuitType n t.Var t.Value
  | n, _, unit => inferInstanceAs (CircuitType n Unit Unit)
  | n, _, field => inferInstanceAs (CircuitType n (Expr n) (Residue n))
  | n, _, bool => inferInstanceAs (CircuitType n (BoolVar n) Bool)
  | n, _, array k => inferInstanceAs (CircuitType n (Vector (Expr n) k) (Vector (Residue n) k))
  | n, _, limbs => inferInstanceAs (CircuitType n (Limbs (Expr n)) Nat)
  | n, _, point => inferInstanceAs (CircuitType n (Coordinates (Expr n)) (Coordinates (Residue n)))
  | _, _, group => inferInstanceAs (CircuitType Pasta.p GroupVar Pallas)
  | _, _, scalar => inferInstanceAs (CircuitType Pasta.p ScalarVar Fq)
  | n, _, pair a b =>
      letI := circuitType a
      letI := circuitType b
      inferInstanceAs (CircuitType n (a.Var × b.Var) (a.Value × b.Value))

instance composable : {n : Nat} → [Modulus n] → (t : Layout n) → CircuitType.Composable n t.Var
  | n, _, unit => inferInstanceAs (CircuitType.Composable n Unit)
  | n, _, field => inferInstanceAs (CircuitType.Composable n (Expr n))
  | n, _, bool => inferInstanceAs (CircuitType.Composable n (BoolVar n))
  | n, _, array k => inferInstanceAs (CircuitType.Composable n (Vector (Expr n) k))
  | n, _, limbs => inferInstanceAs (CircuitType.Composable n (Limbs (Expr n)))
  | n, _, point => inferInstanceAs (CircuitType.Composable n (Coordinates (Expr n)))
  | _, _, group => inferInstanceAs (CircuitType.Composable Pasta.p GroupVar)
  | _, _, scalar => inferInstanceAs (CircuitType.Composable Pasta.p ScalarVar)
  | n, _, pair a b =>
      haveI := composable a
      haveI := composable b
      inferInstanceAs (CircuitType.Composable n (a.Var × b.Var))

instance plain : {n : Nat} → [Modulus n] → (t : Layout n) → CircuitType.Plain n t.Var
  | n, _, unit => inferInstanceAs (CircuitType.Plain n Unit)
  | n, _, field => inferInstanceAs (CircuitType.Plain n (Expr n))
  | n, _, bool => inferInstanceAs (CircuitType.Plain n (BoolVar n))
  | n, _, array k => inferInstanceAs (CircuitType.Plain n (Vector (Expr n) k))
  | n, _, limbs => inferInstanceAs (CircuitType.Plain n (Limbs (Expr n)))
  | n, _, point => inferInstanceAs (CircuitType.Plain n (Coordinates (Expr n)))
  | _, _, group => inferInstanceAs (CircuitType.Plain Pasta.p GroupVar)
  | _, _, scalar => inferInstanceAs (CircuitType.Plain Pasta.p ScalarVar)
  | n, _, pair a b =>
      haveI := plain a
      haveI := plain b
      inferInstanceAs (CircuitType.Plain n (a.Var × b.Var))

/-- The values that have an encoding of their own: limbs are reduced modulo `n`, and `(0, 0)`
stands for infinity. -/
def Representable : {n : Nat} → (t : Layout n) → t.Value → Prop
  | n, limbs, (k : Nat) => k < 2 ^ 176 * n
  | _, group, (g : Pallas) => g ≠ .affine 0
  | _, pair a b, v => a.Representable v.1 ∧ b.Representable v.2
  | _, unit, _ => True
  | _, field, _ => True
  | _, bool, _ => True
  | _, array _, _ => True
  | _, point, _ => True
  | _, scalar, _ => True

end Layout

namespace CircuitType

/-- The elements of a value make it up again. Outside of the circuit this is only asked for where
`P` holds. -/
structure RoundTrips (n : Nat) (T : Type) {V : Type} [CircuitType n T V] (P : V → Prop) :
    Prop where
  ofExprs?_toExprs : ∀ x : T, ofExprs? (toExprs (n := n) x) (aux x) = some x
  decode?_encode : ∀ v, P v → decode? (encode (n := n) T v) (valueAux (T := T) v) = some v

theorem roundTrips_unit : RoundTrips n Unit fun _ => True :=
  ⟨fun _ => rfl, fun _ _ => rfl⟩

theorem roundTrips_expr : RoundTrips n (Expr n) fun _ => True :=
  ⟨fun _ => rfl, fun _ _ => rfl⟩

theorem roundTrips_coordinates : RoundTrips n (Coordinates (Expr n)) fun _ => True :=
  ⟨fun _ => rfl, fun _ _ => rfl⟩

theorem roundTrips_vector {k : Nat} : RoundTrips n (Vector (Expr n) k) fun _ => True where
  ofExprs?_toExprs xs := dif_pos xs.length_toList
  decode?_encode as _ := dif_pos as.length_toList

theorem RoundTrips.pair {T T' V V' : Type} [CircuitType n T V] [CircuitType n T' V'] [Lawful n T]
    [Lawful n T'] {P : V → Prop} {P' : V' → Prop} (h : RoundTrips n T P)
    (h' : RoundTrips n T' P') : RoundTrips n (T × T') fun v => P v.1 ∧ P' v.2 where
  ofExprs?_toExprs := by
    rintro ⟨x, x'⟩
    have hlength := Lawful.length_toExprs (n := n) x
    have hlength' := Lawful.length_toExprs (n := n) x'
    simp only [ofExprs?, toExprs, aux, List.length_append, hlength, hlength', if_true,
      List.take_left' hlength, List.drop_left' hlength, h.ofExprs?_toExprs, h'.ofExprs?_toExprs]
    rfl
  decode?_encode := by
    rintro ⟨v, v'⟩ ⟨hv, hv'⟩
    have hlength := Lawful.length_encode (n := n) (T := T) v
    simp only [decode?, encode, valueAux, List.length_append, hlength, Nat.le_add_right, if_true,
      List.take_left' hlength, List.drop_left' hlength, h.decode?_encode v hv,
      h'.decode?_encode v' hv']
    rfl

variable [Modulus n]

theorem read_of_map_eq {T V : Type} [CircuitType n T V] {x : T} {as : List (Residue n)}
    {lookup : Nat → Option (Residue n)}
    (h : (toExprs (n := n) x).map (·.eval? lookup) = as.map some) :
    read x lookup = decode? as (aux x) := by
  rw [read, mapM_eq_some_of_map_eq h]
  rfl

theorem roundTrips_bool : RoundTrips n (BoolVar n) fun _ => True where
  ofExprs?_toExprs _ := rfl
  decode?_encode v _ := by
    simp only [decode?, encode, ne_eq, Residue.ofBool_eq_zero_iff]
    cases v <;> rfl

theorem roundTrips_limbs [PastaPrime n] :
    RoundTrips n (Limbs (Expr n)) fun k => k < 2 ^ 176 * n where
  ofExprs?_toExprs _ := rfl
  decode?_encode k hk := by
    change some (((Limbs.ofNat k).map fun limb => (Residue.ofNat limb : Residue n).val).toNat) = _
    rw [Limbs.map_val_ofNat, Nat.mod_eq_of_lt hk, Limbs.toNat_ofNat]

theorem roundTrips_group : RoundTrips Pasta.p GroupVar fun g => g ≠ .affine 0 where
  ofExprs?_toExprs _ := rfl
  decode?_encode g hg := by
    cases g with
    | infinity => rfl
    | affine P =>
        have hP : P ≠ 0 := fun h => hg (congrArg _ h)
        exact congrArg some (if_neg hP)

theorem roundTrips_scalar : RoundTrips Pasta.p ScalarVar fun _ => True where
  ofExprs?_toExprs _ := rfl
  decode?_encode u _ := congrArg some (ScalarVar.unshift_shift u)

end CircuitType

namespace Layout

open CircuitType

theorem roundTrips : {n : Nat} → [Modulus n] → [PastaPrime n] → (t : Layout n) →
    RoundTrips n t.Var t.Representable
  | _, _, _, unit => roundTrips_unit
  | _, _, _, field => roundTrips_expr
  | _, _, _, bool => roundTrips_bool
  | _, _, _, array _ => roundTrips_vector
  | _, _, _, limbs => roundTrips_limbs
  | _, _, _, point => roundTrips_coordinates
  | _, _, _, group => roundTrips_group
  | _, _, _, scalar => roundTrips_scalar
  | _, _, _, pair a b => a.roundTrips.pair b.roundTrips

/-- Every value of a nested type is as long as its type says and decodes to itself again: as field
elements, as constants, and as the values of variables. What makes up a value inside of the circuit
makes up nothing else. -/
theorem roundTrips_values [Modulus n] [PastaPrime n] (t : Layout n) :
    (∀ v : t.Value, t.Representable v →
      (encode (n := n) t.Var v).length = size n t.Var ∧
      decode? (encode (n := n) t.Var v) (valueAux (T := t.Var) v) = some v ∧
      (∃ x : t.Var, ofValue? n t.Var v = some x ∧ constantValue? (n := n) x = some v) ∧
      ∀ (x : t.Var) (lookup : Nat → Option (Residue n)),
        (toExprs x).map (·.eval? lookup) = (encode t.Var v).map some →
          read x lookup = some v) ∧
    ∀ x : t.Var, ofExprs? (toExprs (n := n) x) (aux x) = some x := by
  refine ⟨fun v hv => ?_, t.roundTrips.ofExprs?_toExprs⟩
  have hdecode := t.roundTrips.decode?_encode v hv
  refine ⟨Lawful.length_encode v, hdecode, ?_, fun x lookup hx => ?_⟩
  · obtain ⟨x, hx, hembeds⟩ := exists_ofValue? (n := n) (T := t.Var) v
    exact ⟨x, hx, hembeds.constantValue?.trans hdecode⟩
  · rw [read_of_map_eq hx, Plain.aux_eq (aux x) (valueAux v), hdecode]

theorem roundTrips_values_nested :
    let t : Layout Pasta.p := .pair (.pair .bool .limbs) (.pair .group .scalar)
    let v : (Bool × Nat) × Pallas × Fq := ((true, 2 ^ 176 * Pasta.p - 1), (0, 7))
    let x : (BoolVar Pasta.p × Limbs (Expr Pasta.p)) × GroupVar × ScalarVar :=
      ((⟨.var 0⟩, ⟨.var 1, .var 2, .var 3⟩), ⟨⟨.var 4, .var 5⟩⟩, ⟨⟨.var 6⟩, .var 7⟩)
    (encode (n := Pasta.p) t.Var v).length = 8 ∧
      decode? (encode (n := Pasta.p) t.Var v) (valueAux (T := t.Var) v) = some v ∧
      read (n := Pasta.p) (T := t.Var) x
        (Run.proof (encode t.Var v) () : Run Pasta.p Unit).lookup = some v := by
  intro t v x
  have hlimbs : 2 ^ 176 * Pasta.p - 1 < 2 ^ 176 * Pasta.p := by decide
  have hgroup : (0 : Pallas) ≠ .affine 0 := by decide
  have hv : t.Representable v := ⟨⟨trivial, hlimbs⟩, hgroup, trivial⟩
  obtain ⟨hlength, hdecode, -, hread⟩ := (roundTrips_values t).1 v hv
  exact ⟨hlength, hdecode, hread x _ rfl⟩

end Layout

end PallasCircuits
