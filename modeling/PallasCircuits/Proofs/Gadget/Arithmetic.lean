import PallasCircuits.Gadget.Logic
import PallasCircuits.Proofs.Ensures
import PallasCircuits.Proofs.Field.Prime

namespace PallasCircuits

open Builder

variable {n : Nat} [Modulus n] {σ : Type} {ρ : Nat → Residue n}

/-! The constraints of the basic gadgets determine their results. -/

def BoolVar.Means (ρ : Nat → Residue n) (b : BoolVar n) (v : Bool) : Prop :=
  b.expr.eval ρ = .ofBool v

theorem BoolVar.means_constant (v : Bool) : (BoolVar.constant v : BoolVar n).Means ρ v := rfl

theorem BoolVar.exists_means {b : BoolVar n} (h : b.expr.eval ρ = 1 ∨ b.expr.eval ρ = 0) :
    ∃ v, b.Means ρ v := by
  rcases h with hone | hzero
  · exact ⟨true, hone⟩
  · exact ⟨false, hzero⟩

theorem BoolVar.Means.unique {b : BoolVar n} {v w : Bool} (hv : b.Means ρ v)
    (hw : b.Means ρ w) : v = w :=
  Residue.ofBool_injective (hv.symm.trans hw)

namespace CircuitType

theorem check_expr_ensures (x : Expr n) :
    Ensures ρ (check (n := n) x : Builder n σ Unit) fun _ => True :=
  .pure trivial

theorem check_bool_ensures (b : BoolVar n) :
    Ensures ρ (check (n := n) b : Builder n σ Unit) fun _ => ∃ v, b.Means ρ v :=
  (Ensures.assert _).mono fun _ h => BoolVar.exists_means ((Constraint.holds_boolean ρ _).mp h)

theorem check_pair_ensures {T₁ T₂ V₁ V₂ : Type} [CircuitType n T₁ V₁] [CircuitType n T₂ V₂]
    {x : T₁ × T₂} {P₁ P₂ : Prop}
    (h₁ : Ensures ρ (check (n := n) x.1 : Builder n σ Unit) fun _ => P₁)
    (h₂ : Ensures ρ (check (n := n) x.2 : Builder n σ Unit) fun _ => P₂) :
    Ensures ρ (check (n := n) x : Builder n σ Unit) fun _ => P₁ ∧ P₂ :=
  h₁.bind fun _ => h₂.mono fun _ hx₂ hx₁ => ⟨hx₁, hx₂⟩

theorem check_exprs_ensures (x : Expr n × Expr n) :
    Ensures ρ (check (n := n) x : Builder n σ Unit) fun _ => True :=
  (check_pair_ensures (check_expr_ensures x.1) (check_expr_ensures x.2)).mono
    fun _ _ => trivial

end CircuitType

namespace Expr

theorem mul_ensures (x y : Expr n) :
    Ensures ρ (x.mul y : Builder n σ (Expr n)) fun z => z.eval ρ = x.eval ρ * y.eval ρ := by
  unfold mul
  cases hx : x.toConstant? with
  | some a =>
      have ha := eval_of_toConstant? ρ hx
      cases hy : y.toConstant? with
      | some b => exact .pure (by rw [eval_const, ha, eval_of_toConstant? ρ hy])
      | none => exact .pure (by rw [eval_smul, ha])
  | none =>
      cases hy : y.toConstant? with
      | some b => exact .pure (by rw [eval_smul, eval_of_toConstant? ρ hy, mul_comm])
      | none =>
          apply Ensures.skip (.compute CircuitType.check_expr_ensures)
          intro z
          refine .bind (.assert _) fun _ => .pure ?_
          intro hproduct
          exact ((Constraint.holds_product ρ x y z).mp hproduct).symm

theorem square_ensures (x : Expr n) :
    Ensures ρ (x.square : Builder n σ (Expr n)) fun y => y.eval ρ = x.eval ρ ^ 2 := by
  unfold square
  cases hx : x.toConstant? with
  | some a =>
      exact .pure (by rw [eval_const, Residue.square_eq, eval_of_toConstant? ρ hx])
  | none =>
      apply Ensures.skip (.compute CircuitType.check_expr_ensures)
      intro y
      refine .bind (.assert _) fun _ => .pure ?_
      intro hsquare
      exact ((Constraint.holds_square ρ x y).mp hsquare).symm

theorem wire_ensures (x : Expr n) :
    Ensures ρ (x.wire : Builder n σ (Expr n)) fun y => y.eval ρ = x.eval ρ := by
  unfold wire
  split
  · exact .pure rfl
  · exact .pure rfl
  · cases hx : x.toConstant? with
    | some a => exact .pure (by rw [eval_const, eval_of_toConstant? ρ hx])
    | none =>
        apply Ensures.skip (.compute CircuitType.check_expr_ensures)
        intro y
        refine .bind (.assert _) fun _ => .pure ?_
        intro hequal
        exact ((Constraint.holds_equal ρ x y).mp hequal).symm

theorem assertEqual_ensures (x y : Expr n) :
    Ensures ρ (x.assertEqual y : Builder n σ Unit) fun _ => x.eval ρ = y.eval ρ := by
  have hassert : Ensures ρ (assert (.equal x y) : Builder n σ Unit)
      fun _ => x.eval ρ = y.eval ρ :=
    (Ensures.assert _).mono fun _ h => (Constraint.holds_equal ρ x y).mp h
  unfold assertEqual
  cases hx : x.toConstant? with
  | none => exact hassert
  | some a =>
      cases hy : y.toConstant? with
      | none => exact hassert
      | some b =>
          simp only
          split
          · next heq =>
              exact .pure (by rw [eval_of_toConstant? ρ hx, eval_of_toConstant? ρ hy, heq])
          · exact .failSetup _

theorem assertBool_ensures (x : Expr n) :
    Ensures ρ (x.assertBool : Builder n σ (BoolVar n))
      fun b => b.expr = x ∧ ∃ v, b.Means ρ v := by
  unfold assertBool
  cases hx : x.toConstant? with
  | some a =>
      have ha := eval_of_toConstant? ρ hx
      simp only
      split
      · next hbit => exact .pure ⟨rfl, BoolVar.exists_means (by rw [ha]; exact hbit.symm)⟩
      · exact .failSetup _
  | none =>
      refine .bind (.assert _) fun _ => .pure ?_
      intro hboolean
      exact ⟨rfl, BoolVar.exists_means ((Constraint.holds_boolean ρ x).mp hboolean)⟩

section

variable [PastaPrime n]

theorem isZeroVar_ensures (z : Expr n) :
    Ensures ρ (z.isZeroVar : Builder n σ (BoolVar n))
      fun b => b.Means ρ (decide (z.eval ρ = 0)) := by
  unfold isZeroVar
  refine .skip (.compute CircuitType.check_exprs_ensures) ?_
  rintro ⟨flag, inverse⟩
  refine .bind (.assert _) fun _ => .bind (.assert _) fun _ => .pure ?_
  intro hzero hinverse
  rw [Constraint.holds_product] at hzero hinverse
  simp only [eval_minus, eval_one, eval_zero] at hzero hinverse
  by_cases hz : z.eval ρ = 0
  · rw [hz, mul_zero] at hinverse
    simpa [BoolVar.Means, hz] using (sub_eq_zero.mp hinverse.symm).symm
  · simpa [BoolVar.Means, hz] using hzero

theorem isEqual_ensures (x y : Expr n) :
    Ensures ρ (x.isEqual y : Builder n σ (BoolVar n))
      fun b => b.Means ρ (decide (x.eval ρ = y.eval ρ)) := by
  have hdiff : (x - y).eval ρ = 0 ↔ x.eval ρ = y.eval ρ := by
    rw [eval_minus, sub_eq_zero]
  simp only [isEqual]
  cases hz : (x - y).toConstant? with
  | some a =>
      refine .pure ?_
      rw [eval_of_toConstant? ρ hz] at hdiff
      rw [decide_eq_decide.mpr hdiff]
      exact BoolVar.means_constant _
  | none =>
      apply (isZeroVar_ensures (x - y)).mono
      intro b hb
      rwa [decide_eq_decide.mpr hdiff] at hb

end

end Expr

end PallasCircuits
