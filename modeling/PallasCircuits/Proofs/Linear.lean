import PallasCircuits.Field.Pasta
import PallasCircuits.Proofs.Expr

namespace PallasCircuits

variable {n : Nat} [Modulus n]

/-! Expressions are sums of multiples: whatever shape they are given, it is only their value that
counts, and the terms that are collected from them add up to it. -/

theorem Affine.getD_constant? (a : Affine n) : a.constant?.getD 0 = a.constant := by
  unfold constant?
  split
  · next hzero => exact hzero.symm
  · rfl

namespace Expr

variable (ρ : Nat → Residue n)

theorem accumulate_eq (factor : Residue n) (x : Expr n) (total : Residue n) :
    x.accumulate ρ factor total = total + factor * x.eval ρ := by
  induction x generalizing factor total with
  | const c => rfl
  | var i => rfl
  | add a b iha ihb =>
      rw [accumulate, ihb, iha, eval_add]
      ring
  | scale k x ih =>
      rw [accumulate, ih, eval_scale]
      ring

theorem linearCombination_eq_sum (terms : List (Residue n × Expr n)) :
    linearCombination terms = Expr.sum (terms.map fun term => term.1 • term.2) := by
  rw [linearCombination, Expr.sum, List.foldl_map]

theorem eval_linearCombination (terms : List (Residue n × Expr n)) :
    (linearCombination terms).eval ρ = (terms.map fun term => term.1 * term.2.eval ρ).sum := by
  rw [linearCombination_eq_sum, eval_sum, List.map_map]
  exact congrArg List.sum (List.map_congr_left fun term _ => eval_smul ρ term.1 term.2)

theorem eval_eq_terms (x : Expr n) :
    x.eval ρ =
      x.affine.constant?.getD 0 + (x.affine.terms.map fun term => term.1 * ρ term.2).sum := by
  rw [Affine.getD_constant?, ← eval_affine]
  rfl

theorem isSome_toConstant?_iff (x : Expr n) :
    x.toConstant?.isSome = true ↔ x.affine.terms = [] := by
  unfold toConstant?
  rw [← List.isEmpty_iff]
  split
  · next hempty => exact iff_of_true rfl hempty
  · next hempty => exact iff_of_false Bool.false_ne_true hempty

/-- Sums, differences, multiples and their combinations evaluate to what they are called, however
they were put together and whatever was folded on the way. A single pass over an expression
arrives at its value, and so do the terms collected from it, one for each time that it mentions a
variable. It is known when there are none, and then it has the value it is known by under every
assignment. -/
theorem linear_exact (ρ : Nat → Residue n) :
    (∀ x y : Expr n, (x + y).eval ρ = x.eval ρ + y.eval ρ ∧
      (x - y).eval ρ = x.eval ρ - y.eval ρ) ∧
    (∀ (x : Expr n) (k : Residue n), (k • x).eval ρ = k * x.eval ρ ∧
      (-x).eval ρ = -x.eval ρ) ∧
    (∀ terms : List (Residue n × Expr n), (linearCombination terms).eval ρ =
      (terms.map fun term => term.1 * term.2.eval ρ).sum) ∧
    (∀ xs : List (Expr n), (Expr.sum xs).eval ρ = (xs.map (·.eval ρ)).sum) ∧
    ∀ x : Expr n,
      x.accumulate ρ 1 0 = x.eval ρ ∧
      x.eval ρ =
        x.affine.constant?.getD 0 + (x.affine.terms.map fun term => term.1 * ρ term.2).sum ∧
      x.affine.terms.length = x.occurrences ∧
      (∀ c, x.toConstant? = some c → x.eval ρ = c) ∧
      (x.toConstant?.isSome = true ↔ x.affine.terms = []) := by
  refine ⟨fun x y => ⟨eval_plus ρ x y, eval_minus ρ x y⟩,
    fun x k => ⟨eval_smul ρ k x, eval_neg ρ x⟩, eval_linearCombination ρ, eval_sum ρ,
    fun x => ⟨?_, eval_eq_terms ρ x, length_terms x, fun c => eval_of_toConstant? ρ,
      isSome_toConstant?_iff x⟩⟩
  rw [accumulate_eq, zero_add, one_mul]

theorem linear_exact_nested :
    (scale 3 (add (var 1) (scale 5 (add (const 2) (var 0)))) : Expr Pasta.p).eval (fun _ => 1) =
      (30 : Fp) + [(15 : Fp) * 1, 3 * 1].sum ∧
    (scale 3 (add (const 2) (scale 0 (const 4))) : Expr Pasta.p).eval (fun _ => 1) = (6 : Fp) := by
  obtain ⟨-, -, -, -, hshape⟩ := linear_exact fun _ => (1 : Fp)
  obtain ⟨-, hterms, -⟩ := hshape (scale 3 (add (var 1) (scale 5 (add (const 2) (var 0)))))
  obtain ⟨-, -, -, hknown, -⟩ := hshape (scale 3 (add (const 2) (scale 0 (const 4))))
  exact ⟨hterms, hknown 6 (by decide)⟩

-- A factor of zero in front of a variable does.
example : (scale 0 (var 0) : Expr Pasta.p).toConstant? = none := by decide

end Expr

end PallasCircuits
