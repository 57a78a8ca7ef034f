import PallasCircuits.Expr
import PallasCircuits.Proofs.Field.Ring

namespace PallasCircuits

/-! Folding constants never changes what an expression evaluates to. -/

def Affine.eval {n : Nat} [Modulus n] (ρ : Nat → Residue n) (a : Affine n) : Residue n :=
  a.constant + (a.terms.map fun term => term.1 * ρ term.2).sum

namespace Expr

variable {n : Nat} [Modulus n] (ρ : Nat → Residue n)

@[simp] theorem eval_zero : (0 : Expr n).eval ρ = 0 := rfl

@[simp] theorem eval_one : (1 : Expr n).eval ρ = 1 := rfl

@[simp] theorem eval_plus (x y : Expr n) : (x + y).eval ρ = x.eval ρ + y.eval ρ := by
  change (Expr.plus x y).eval ρ = _
  cases x <;> cases y <;> simp only [Expr.plus] <;> (try split) <;> simp_all

@[simp] theorem eval_smul (k : Residue n) (x : Expr n) : (k • x).eval ρ = k * x.eval ρ := by
  change (Expr.times k x).eval ρ = _
  unfold Expr.times
  split
  · next hzero => simp [hzero]
  · split
    · next hone => simp [hone]
    · cases x with
      | const c => simp [mul_comm]
      | var i => rfl
      | add a b => rfl
      | scale j y =>
          simp only [eval_scale]
          ring

@[simp] theorem eval_neg (x : Expr n) : (-x).eval ρ = -x.eval ρ := by
  change ((-1 : Residue n) • x).eval ρ = _
  rw [eval_smul, neg_one_mul]

@[simp] theorem eval_minus (x y : Expr n) : (x - y).eval ρ = x.eval ρ - y.eval ρ := by
  have hgeneral : (x + -y).eval ρ = x.eval ρ - y.eval ρ := by
    rw [eval_plus, eval_neg, sub_eq_add_neg]
  change (Expr.minus x y).eval ρ = _
  cases x with
  | const a =>
      cases y with
      | const b => rfl
      | _ => exact hgeneral
  | _ => exact hgeneral

theorem eval_sum (xs : List (Expr n)) : (Expr.sum xs).eval ρ = (xs.map (·.eval ρ)).sum := by
  have hfold : ∀ acc : Expr n,
      (xs.foldl (· + ·) acc).eval ρ = acc.eval ρ + (xs.map (·.eval ρ)).sum := by
    induction xs with
    | nil => simp
    | cons x xs ih =>
        intro acc
        rw [List.foldl_cons, ih, eval_plus, List.map_cons, List.sum_cons, add_assoc]
  exact (hfold 0).trans (zero_add _)

theorem eval_collect (factor : Residue n) (x : Expr n) (acc : Affine n) :
    (collect factor x acc).eval ρ = acc.eval ρ + factor * x.eval ρ := by
  induction x generalizing factor acc with
  | const c =>
      simp only [collect, Affine.eval, eval_const]
      ring
  | var i =>
      simp only [collect, Affine.eval, eval_var, List.map_cons, List.sum_cons]
      ring
  | add a b iha ihb =>
      rw [collect, ihb, iha, eval_add]
      ring
  | scale k x ih =>
      rw [collect, ih, eval_scale]
      ring

theorem eval_affine (x : Expr n) : x.affine.eval ρ = x.eval ρ := by
  rw [affine, eval_collect]
  simp [Affine.eval]

theorem eval_of_toConstant? {x : Expr n} {a : Residue n} (h : x.toConstant? = some a) :
    x.eval ρ = a := by
  unfold toConstant? at h
  split at h
  · next hempty =>
      rw [← eval_affine, Affine.eval, List.isEmpty_iff.mp hempty]
      simpa using h
  · cases h

/-! ### Constants -/

def occurrences : Expr n → Nat
  | const _ => 0
  | var _ => 1
  | add a b => a.occurrences + b.occurrences
  | scale _ x => x.occurrences

theorem length_terms_collect (factor : Residue n) (x : Expr n) (acc : Affine n) :
    (collect factor x acc).terms.length = acc.terms.length + x.occurrences := by
  induction x generalizing factor acc with
  | const c => rfl
  | var i => simp [collect, occurrences]
  | add a b iha ihb =>
      rw [collect, ihb, iha, occurrences]
      omega
  | scale k x ih => rw [collect, ih, occurrences]

theorem length_terms (x : Expr n) : x.affine.terms.length = x.occurrences := by
  rw [affine, length_terms_collect, List.length_nil, Nat.zero_add]

theorem toConstant?_eq_none_iff (x : Expr n) : x.toConstant? = none ↔ 0 < x.occurrences := by
  rw [← length_terms, List.length_pos_iff, toConstant?]
  split
  · next hempty => simpa using hempty
  · next hne => simpa using hne

@[simp] theorem toConstant?_const (c : Residue n) : (const c).toConstant? = some c := by
  simp [toConstant?, affine, collect]

@[simp] theorem toConstant?_var (i : Nat) : (var i : Expr n).toConstant? = none := by
  simp [toConstant?, affine, collect]

@[simp] theorem occurrences_plus (x y : Expr n) :
    (x + y).occurrences = x.occurrences + y.occurrences := by
  change (Expr.plus x y).occurrences = _
  cases x <;> cases y <;> simp only [Expr.plus] <;> (try split) <;> simp [occurrences]

@[simp] theorem occurrences_smul {k : Residue n} (hk : k ≠ 0) (x : Expr n) :
    (k • x).occurrences = x.occurrences := by
  change (Expr.times k x).occurrences = _
  unfold Expr.times
  rw [if_neg hk]
  split
  · rfl
  · cases x <;> rfl

@[simp] theorem occurrences_minus (x y : Expr n) :
    (x - y).occurrences = x.occurrences + y.occurrences := by
  have hone : (-1 : Residue n) ≠ 0 := neg_ne_zero.mpr Residue.one_ne_zero
  have hgeneral : (x + (-1 : Residue n) • y).occurrences = x.occurrences + y.occurrences := by
    rw [occurrences_plus, occurrences_smul hone]
  change (Expr.minus x y).occurrences = _
  cases x with
  | const a =>
      cases y with
      | const b => rfl
      | _ => exact hgeneral
  | _ => exact hgeneral

theorem occurrences_sum (xs : List (Expr n)) :
    (Expr.sum xs).occurrences = (xs.map occurrences).sum := by
  have hfold : ∀ acc : Expr n,
      (xs.foldl (· + ·) acc).occurrences = acc.occurrences + (xs.map occurrences).sum := by
    induction xs with
    | nil => simp
    | cons x xs ih =>
        intro acc
        rw [List.foldl_cons, ih, occurrences_plus, List.map_cons, List.sum_cons, Nat.add_assoc]
  exact (hfold 0).trans (Nat.zero_add _)

theorem toConstant?_eq_some_iff {x : Expr n} {a : Residue n} :
    x.toConstant? = some a ↔ x.occurrences = 0 ∧ x.eval ρ = a := by
  cases hx : x.toConstant? with
  | none =>
      have hpos := (toConstant?_eq_none_iff x).mp hx
      exact iff_of_false (by rintro ⟨⟩) fun h => hpos.ne' h.1
  | some b =>
      have hclosed : x.occurrences = 0 := by
        by_contra hne
        rw [(toConstant?_eq_none_iff x).mpr (Nat.pos_of_ne_zero hne)] at hx
        cases hx
      rw [Option.some_inj, eval_of_toConstant? ρ hx, and_iff_right hclosed]

theorem toConstant?_smul (c : Residue n) {x : Expr n} {a : Residue n}
    (hx : x.toConstant? = some a) : (c • x).toConstant? = some (c * a) := by
  obtain ⟨hclosed, hvalue⟩ := (toConstant?_eq_some_iff fun _ => 0).mp hx
  refine (toConstant?_eq_some_iff fun _ => 0).mpr ⟨?_, by rw [eval_smul, hvalue]⟩
  by_cases hc : c = 0
  · change (Expr.times c x).occurrences = 0
    unfold Expr.times
    rw [if_pos hc]
    rfl
  · rw [occurrences_smul hc, hclosed]

theorem toConstant?_plus {x y : Expr n} {a b : Residue n} (hx : x.toConstant? = some a)
    (hy : y.toConstant? = some b) : (x + y).toConstant? = some (a + b) := by
  obtain ⟨hxclosed, hxvalue⟩ := (toConstant?_eq_some_iff fun _ => 0).mp hx
  obtain ⟨hyclosed, hyvalue⟩ := (toConstant?_eq_some_iff fun _ => 0).mp hy
  refine (toConstant?_eq_some_iff fun _ => 0).mpr ⟨?_, by rw [eval_plus, hxvalue, hyvalue]⟩
  rw [occurrences_plus, hxclosed, hyclosed]

end Expr

end PallasCircuits
