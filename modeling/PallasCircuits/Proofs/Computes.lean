import PallasCircuits.Proofs.Gadget.Completeness
import PallasCircuits.Proofs.Gadget.Setup
import PallasCircuits.Proofs.HonestScaling

namespace PallasCircuits

open Builder

variable {n : Nat} [Modulus n] {σ T V : Type} [CircuitType n T V]

/-! What a computation makes of its operands, whoever proves it: the constraints leave a prover
no other result, and an honest one arrives at it. -/

namespace CircuitType

variable {ρ : Nat → Residue n}

theorem fields_expr (x : Expr n) : fields ρ x = [x.eval ρ] := rfl

theorem fields_bool (b : BoolVar n) : fields ρ b = [b.expr.eval ρ] := rfl

end CircuitType

/-- From `start` on, `m` computes `value` of its operands, which satisfy what is `given`. -/
structure Run.Computes (start : Run n σ) (m : Builder n σ T) (operands : List (Expr n))
    (given : (Nat → Residue n) → Prop) (value : (Nat → Residue n) → List (Residue n)) :
    Prop where
  builds : start.SettingUp → ∃ x u, m start = .ok x u
  sound : start.Recording → ∀ x u, m start = .ok x u →
    ∀ ρ, (∀ c ∈ start.recordedSince u, c.Holds ρ) → given ρ → CircuitType.fields ρ x = value ρ
  honest : start.Proving → (∀ e ∈ operands, e.Below start.nextVar) → given start.assignment →
    ∃ x u, m start = .ok x u ∧ start.Advances u ∧
      u.CarriesAll (CircuitType.toExprs x) (value start.assignment)

theorem Run.Computes.of_specs {start : Run n σ} {m : Builder n σ T} {operands : List (Expr n)}
    {given : (Nat → Residue n) → Prop} {value : (Nat → Residue n) → List (Residue n)}
    (hbuilds : Builds m fun _ => True)
    (hensures : ∀ ρ, Ensures ρ m fun x => given ρ → CircuitType.fields ρ x = value ρ)
    (hproves : (∀ e ∈ operands, e.Below start.nextVar) → given start.assignment →
      Proves start m fun t x => t.CarriesAll (CircuitType.toExprs x) (value start.assignment)) :
    start.Computes m operands given value where
  builds hs := by
    obtain ⟨x, u, hrun, -, -⟩ := hbuilds start hs
    exact ⟨x, u, hrun⟩
  sound hs _ _ hrun ρ hholds := (hensures ρ).of_recordedSince hs hrun hholds
  honest hs hoperands hgiven := hproves hoperands hgiven hs

namespace Builder

/-- `m` adds neither a variable nor a constraint to any run, and its result evaluates to `value`
under every assignment. -/
def Folds (m : Builder n σ T) (value : (Nat → Residue n) → List (Residue n)) : Prop :=
  ∃ x, (∀ s, m s = .ok x s) ∧ ∀ ρ, CircuitType.fields ρ x = value ρ

theorem Folds.pure {x : T} {value : (Nat → Residue n) → List (Residue n)}
    (h : ∀ ρ, CircuitType.fields ρ x = value ρ) : Folds (pure x : Builder n σ T) value :=
  ⟨x, fun _ => rfl, h⟩

end Builder

/-- `m` computes `value` of any operands, and folds it when `folding` holds. -/
structure Run.ComputesAlways (start : Run n σ) (m : Builder n σ T) (operands : List (Expr n))
    (folding : Prop) (value : (Nat → Residue n) → List (Residue n)) : Prop
    extends start.Computes m operands (fun _ => True) value where
  folds : folding → Folds m value

/-! ### Arithmetic -/

namespace Expr

variable {start : Run n σ} {x y : Expr n}

theorem mul_folds (h : x.toConstant?.isSome ∨ y.toConstant?.isSome) :
    Folds (x.mul y : Builder n σ (Expr n)) fun ρ => [x.eval ρ * y.eval ρ] := by
  unfold mul
  cases hx : x.toConstant? with
  | some a =>
      cases hy : y.toConstant? with
      | some b =>
          refine .pure fun ρ => ?_
          rw [CircuitType.fields_expr, eval_const, eval_of_toConstant? ρ hx,
            eval_of_toConstant? ρ hy]
      | none =>
          refine .pure fun ρ => ?_
          rw [CircuitType.fields_expr, eval_smul, eval_of_toConstant? ρ hx]
  | none =>
      cases hy : y.toConstant? with
      | some b =>
          refine .pure fun ρ => ?_
          rw [CircuitType.fields_expr, eval_smul, eval_of_toConstant? ρ hy, mul_comm]
      | none => simp [hx, hy] at h

theorem square_folds (h : x.toConstant?.isSome) :
    Folds (x.square : Builder n σ (Expr n)) fun ρ => [x.eval ρ ^ 2] := by
  obtain ⟨a, hx⟩ := Option.isSome_iff_exists.mp h
  simp only [square, hx]
  refine .pure fun ρ => ?_
  rw [CircuitType.fields_expr, eval_const, Residue.square_eq, eval_of_toConstant? ρ hx]

theorem wire_folds (h : x.toConstant?.isSome ∨ ∃ i, x = .var i) :
    Folds (x.wire : Builder n σ (Expr n)) fun ρ => [x.eval ρ] := by
  unfold wire
  split
  · exact .pure fun ρ => rfl
  · exact .pure fun ρ => rfl
  · next hvar =>
      have hclosed := h.resolve_right (not_exists.mpr hvar)
      obtain ⟨a, hx⟩ := Option.isSome_iff_exists.mp hclosed
      simp only [hx]
      refine .pure fun ρ => ?_
      rw [CircuitType.fields_expr, eval_const, eval_of_toConstant? ρ hx]

theorem isEqual_folds (h : (x - y).toConstant?.isSome) :
    Folds (x.isEqual y : Builder n σ (BoolVar n)) fun ρ =>
      [.ofBool (decide (x.eval ρ = y.eval ρ))] := by
  obtain ⟨a, hdiff⟩ := Option.isSome_iff_exists.mp h
  simp only [isEqual, hdiff]
  refine .pure fun ρ => ?_
  have hzero : a = 0 ↔ x.eval ρ = y.eval ρ := by
    rw [← eval_of_toConstant? ρ hdiff, eval_minus, sub_eq_zero]
  rw [← decide_eq_decide.mpr hzero]
  rfl

theorem mul_computes (x y : Expr n) :
    start.Computes (x.mul y) [x, y] (fun _ => True) fun ρ => [x.eval ρ * y.eval ρ] := by
  refine .of_specs ((mul_builds x y).mono fun _ _ => trivial) (fun ρ => ?_) fun hoperands _ => ?_
  · refine (mul_ensures x y).mono fun z hz _ => ?_
    rw [CircuitType.fields_expr, hz]
  · obtain ⟨hx, hy⟩ := List.forall_mem_cons.mp hoperands
    exact mul_proves (.of_below hx) (.of_below (List.forall_mem_singleton.mp hy))

theorem square_computes (x : Expr n) :
    start.Computes x.square [x] (fun _ => True) fun ρ => [x.eval ρ ^ 2] := by
  refine .of_specs (square_builds x) (fun ρ => ?_) fun hoperands _ => ?_
  · refine (square_ensures x).mono fun y hy _ => ?_
    rw [CircuitType.fields_expr, hy]
  · exact square_proves (.of_below (List.forall_mem_singleton.mp hoperands))

theorem wire_computes (x : Expr n) :
    start.Computes x.wire [x] (fun _ => True) fun ρ => [x.eval ρ] := by
  refine .of_specs ((wire_builds x).mono fun _ _ => trivial) (fun ρ => ?_) fun hoperands _ => ?_
  · refine (wire_ensures x).mono fun y hy _ => ?_
    rw [CircuitType.fields_expr, hy]
  · exact wire_proves (.of_below (List.forall_mem_singleton.mp hoperands))

variable [PastaPrime n]

theorem isEqual_computes (x y : Expr n) :
    start.Computes (x.isEqual y) [x, y] (fun _ => True) fun ρ =>
      [.ofBool (decide (x.eval ρ = y.eval ρ))] := by
  refine .of_specs ((isEqual_builds x y).mono fun _ _ => trivial) (fun ρ => ?_)
    fun hoperands _ => ?_
  · refine (isEqual_ensures x y).mono fun b hb _ => ?_
    rw [CircuitType.fields_bool, hb]
  · obtain ⟨hx, hy⟩ := List.forall_mem_cons.mp hoperands
    exact isEqual_proves (.of_below hx) (.of_below (List.forall_mem_singleton.mp hy))

/-- Products, squares, wires and tests for equality are exact, whatever the shapes and the values
of their operands. They are folded as soon as an operand is known, or in the last case the
difference of both. -/
theorem arithmetic_exact (start : Run n σ) (x y : Expr n) :
    start.ComputesAlways (x.mul y) [x, y] (x.toConstant?.isSome ∨ y.toConstant?.isSome)
      (fun ρ => [x.eval ρ * y.eval ρ]) ∧
    start.ComputesAlways x.square [x] x.toConstant?.isSome (fun ρ => [x.eval ρ ^ 2]) ∧
    start.ComputesAlways x.wire [x] (x.toConstant?.isSome ∨ ∃ i, x = .var i)
      (fun ρ => [x.eval ρ]) ∧
    start.ComputesAlways (x.isEqual y) [x, y] (x - y).toConstant?.isSome
      (fun ρ => [.ofBool (decide (x.eval ρ = y.eval ρ))]) :=
  ⟨⟨mul_computes x y, mul_folds⟩, ⟨square_computes x, square_folds⟩,
    ⟨wire_computes x, wire_folds⟩, isEqual_computes x y, isEqual_folds⟩

theorem arithmetic_exact_fifteen :
    (∃ z u, (var 0).mul (var 1) (.proof [3, 5] () : Run Pasta.p Unit) = .ok z u ∧
      u.Carries z (15 : Fp)) ∧
    (∃ b u, (var 0).isEqual (var 1) (.proof [3, 5] () : Run Pasta.p Unit) = .ok b u ∧
      u.Carries b false) ∧
    Folds ((0 : Expr Pasta.q).mul (var 0) : Builder Pasta.q Unit (Expr Pasta.q))
      fun ρ => [0 * ρ 0] := by
  have hstart := Run.proving_proof ([3, 5] : List Fp) ()
  have hscope : ∀ e ∈ [(var 0 : Expr Pasta.p), var 1], e.Below 2 := by simp [Below]
  obtain ⟨hmul, -, -, hequal⟩ :=
    arithmetic_exact (.proof [3, 5] () : Run Pasta.p Unit) (var 0) (var 1)
  obtain ⟨z, u, hz, -, hfifteen⟩ := hmul.honest hstart hscope trivial
  obtain ⟨b, w, hb, -, hfalse⟩ := hequal.honest hstart hscope trivial
  exact ⟨⟨z, u, hz, hfifteen⟩, ⟨b, w, hb, hfalse⟩,
    (arithmetic_exact (.start 0 true ()) 0 (var 0)).1.folds (.inl rfl)⟩

end Expr

end PallasCircuits
