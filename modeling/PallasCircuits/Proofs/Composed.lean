import PallasCircuits.Proofs.Builder
import PallasCircuits.Proofs.Check

namespace PallasCircuits

variable {n : Nat} [Modulus n] {σ α β : Type}

namespace Builder

/-- Computations that are put together from the primitives, and whose values only depend on
those of the first `k` variables. `Q` holds of the number of variables in the end and of
the result. -/
inductive Composed {n : Nat} [Modulus n] {σ : Type} :
    {α : Type} → Nat → Builder n σ α → (Nat → α → Prop) → Prop
  | pure {α : Type} {k : Nat} {a : α} {Q : Nat → α → Prop} (h : ∀ j ≥ k, Q j a) :
      Composed k (pure a) Q
  | throw {α : Type} {k : Nat} {Q : Nat → α → Prop} (fault : Fault) :
      Composed k (throw fault) Q
  | bind {α β : Type} {k : Nat} {m : Builder n σ α} {f : α → Builder n σ β}
      {P : Nat → α → Prop} {Q : Nat → β → Prop} (hm : Composed k m P)
      (hf : ∀ j ≥ k, ∀ a, P j a → Composed j (f a) Q) : Composed k (m >>= f) Q
  | mono {α : Type} {k : Nat} {m : Builder n σ α} {P Q : Nat → α → Prop}
      (hm : Composed k m P) (h : ∀ j ≥ k, ∀ a, P j a → Q j a) : Composed k m Q
  | constrain {k : Nat} {cs : List (Constraint n)} (h : ∀ c ∈ cs, c.Below k) :
      Composed k (constrain cs) fun _ _ => True
  | declare {k size : Nat} {v : Reading n (List (Residue n))}
      (hv : Answers k v fun xs => xs.length = size) :
      Composed k (declare size (reading v)) fun j xs => xs.length = size ∧ ∀ x ∈ xs, x.Below j
  | introduce {k : Nat} {T V : Type} [CircuitType n T V] [CircuitType.Lawful n T]
      [CircuitType.Plain n T] {checked : Bool} {v : Reading n V} (hv : Answers k v fun _ => True)
      (hcheck : checked = true → ∀ j ≥ k, ∀ x : T, InScope (n := n) j x →
        Composed j (CircuitType.check (n := n) x : Builder n σ Unit) fun _ _ => True) :
      Composed k (introduce checked (reading v) : Builder n σ T) fun j x => InScope (n := n) j x

end Builder

/-- Types whose well-formedness is checked by composed computations. These look at the
expressions only. -/
class CircuitType.Composable (n : Nat) [Modulus n] (T : Type) {V : outParam Type}
    [CircuitType n T V] : Prop extends CircuitType.Lawful n T where
  check_composed : ∀ {σ : Type} {k : Nat} {x : T}, InScope (n := n) k x →
    Builder.Composed k (check (n := n) x : Builder n σ Unit) fun _ _ => True
  check_congr : ∀ {σ : Type} {x y : T}, toExprs (n := n) x = toExprs y →
    (check (n := n) x : Builder n σ Unit) = check y

namespace Builder.Composed

variable {k : Nat} {m : Builder n σ α} {f : α → Builder n σ β} {P : Nat → α → Prop}
  {Q : Nat → β → Prop}

theorem failSetup (error : SetupError) : Composed k (failSetup error : Builder n σ α) P :=
  throw _

theorem orAbort {o : Option α} {a : α} (ho : o = some a) (h : ∀ j ≥ k, P j a) :
    Composed k (orAbort o : Builder n σ α) P := by
  rw [ho]
  exact pure h

theorem guard {c : Prop} [Decidable c] {m : Builder n σ Unit} {f : Unit → Builder n σ β}
    (hm : c → Composed k m fun _ _ => True) (hf : ∀ j ≥ k, Composed j (f ()) Q) :
    Composed k (if c then m >>= f else f ()) Q := by
  split
  · next hc => exact (hm hc).bind fun j hj _ _ => hf j hj
  · exact hf k (Nat.le_refl k)

theorem assert {c : Constraint n} (h : c.Below k) :
    Composed k (assert c : Builder n σ Unit) fun _ _ => True :=
  constrain (List.forall_mem_singleton.mpr h)

theorem forM {γ : Type} {xs : List γ} {g : γ → Builder n σ PUnit}
    (h : ∀ j ≥ k, ∀ x ∈ xs, Composed j (g x) fun _ _ => True) :
    Composed k (xs.forM g) fun _ _ => True := by
  induction xs generalizing k with
  | nil => exact pure fun _ _ => trivial
  | cons x xs ih =>
      apply bind (h k (Nat.le_refl k) x List.mem_cons_self)
      intro j hj _ _
      exact ih fun i hi y hy => h i (Nat.le_trans hj hi) y (List.mem_cons_of_mem x hy)

section

variable {T V : Type} [CircuitType n T V] {v : Reading n V}

theorem compute [CircuitType.Composable n T] [CircuitType.Plain n T]
    (hv : Answers k v fun _ => True) :
    Composed k (compute v : Builder n σ T) fun j x => InScope (n := n) j x :=
  introduce hv fun _ _ _ _ hx => CircuitType.Composable.check_composed hx

theorem computeUnchecked [CircuitType.Lawful n T] [CircuitType.Plain n T]
    (hv : Answers k v fun _ => True) :
    Composed k (computeUnchecked v : Builder n σ T) fun j x => InScope (n := n) j x :=
  introduce hv (by rintro ⟨⟩)

end

end Builder.Composed

namespace CircuitType

open Builder

instance : Composable n Unit where
  check_composed _ := .pure fun _ _ => trivial
  check_congr _ := rfl

instance : Composable n (Expr n) where
  check_composed _ := .pure fun _ _ => trivial
  check_congr _ := rfl

instance : Composable n (BoolVar n) where
  check_composed h := .assert ((inScope_bool _ _).mp h)
  check_congr {_ b c} h := by
    cases b
    cases c
    cases h
    rfl

instance {k : Nat} : Composable n (Vector (Expr n) k) where
  check_composed _ := .pure fun _ _ => trivial
  check_congr _ := rfl

instance : Composable n (Coordinates (Expr n)) where
  check_composed _ := .pure fun _ _ => trivial
  check_congr _ := rfl

instance {T₁ T₂ V₁ V₂ : Type} [CircuitType n T₁ V₁] [CircuitType n T₂ V₂] [Composable n T₁]
    [Composable n T₂] : Composable n (T₁ × T₂) where
  check_composed h := by
    obtain ⟨h₁, h₂⟩ := (inScope_pair _ _).mp h
    apply (Composable.check_composed h₁).bind
    intro j hj _ _
    exact Composable.check_composed (h₂.mono hj)
  check_congr {σ x y} h := by
    obtain ⟨h₁, h₂⟩ := toExprs_eq_pair h
    change (check (n := n) x.1 >>= fun _ => check x.2 : Builder n σ Unit) =
      (check (n := n) y.1 >>= fun _ => check y.2)
    rw [Composable.check_congr h₁, Composable.check_congr h₂]

end CircuitType

end PallasCircuits
