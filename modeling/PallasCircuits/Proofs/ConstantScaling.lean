import PallasCircuits.Proofs.Extends
import PallasCircuits.Proofs.HonestScaling

namespace PallasCircuits

open Builder Coordinates

variable {σ : Type}

/-! Constants are multiplied by other means than variables. -/

namespace PointVar

variable {start u : Run Pasta.p σ} {P R : PointVar Pasta.p} {A : Pallas.Point} {t : ScalarVar}
  {v : Bool} {b : Fp} {count : Nat}

theorem scaleShifted_of_constant (hcount : count ≤ highBits)
    (hP : CircuitType.constantValue? (n := Pasta.p) P = some (ofPoint A))
    (hlo : t.lo.expr.toConstant? = some (.ofBool v)) (hhi : t.hi.toConstant? = some b)
    (s : Run Pasta.p σ) :
    scaleShifted P t count s =
      .ok (constant (ofPoint ((2 * b.val + v.toNat + 2 ^ 255) • A))) s := by
  have hscalar : CircuitType.constantValue? (n := Pasta.p) t =
      some (ScalarVar.unshift (.ofBool v) b) := by
    simp only [CircuitType.constantValue?, CircuitType.toExprs, List.mapM_cons, List.mapM_nil,
      hlo, hhi]
    rfl
  have hmultiple := nsmul_of_constantValue? (ρ := fun _ => 0) hscalar A
  rw [Expr.eval_of_toConstant? _ hlo, Expr.eval_of_toConstant? _ hhi, Residue.val_ofBool]
    at hmultiple
  unfold scaleShifted
  rw [if_neg (not_lt.mpr hcount), hP, hscalar]
  simp only [scaleConstant_eq, hmultiple, pure_apply]

theorem scaleShiftedVar_of_ok (hA : A ≠ 0) (hcount : count ≤ highBits) (hstart : start.Proving)
    (heval : start.evaluates = true) (hP : start.Carries P (ofPoint A))
    (hlo : start.Carries t.lo v) (hhi : start.Carries t.hi b)
    (hrun : scaleShiftedVar P t count start = .ok R u) :
    b.val < 2 ^ count ∧ b.val ≠ tripleHigh ∧
      u.Carries R (ofPoint ((2 * b.val + v.toNat + 2 ^ 255) • A)) := by
  have hcomposed := scaleShiftedVar_composed (σ := σ) count (below_of_carries hP)
    ((inScope_scalar _ t).mpr ⟨(Run.carries_bool.mp hlo).below, hhi.below⟩)
  obtain ⟨hadvances, hbelow, hensured⟩ := hcomposed.of_ensures
    (fun ρ => scaleShiftedVar_ensures (ρ := ρ) P t hcount) hstart le_rfl heval hrun
  have hpoint : (P.eval u.assignment).Locates A := by
    rw [eval_of_carries (hP.mono hadvances)]
    exact locates_ofPoint hA
  obtain ⟨hlt, hR⟩ := hensured A v hpoint (Run.carries_bool.mp (hlo.mono hadvances)).eval
  rw [(hhi.mono hadvances).eval] at hlt hR
  -- The constraints alone admit one more high part, which no honest prover gets past the gate.
  refine ⟨hlt, fun htriple => ?_, carries_of_eval hbelow hR⟩
  obtain ⟨w, hfault⟩ := scaleShiftedVar_fails hA heval hP hhi hlt htriple hstart
  rw [hfault] at hrun
  cases hrun

/-- Constants are multiplied whatever their high part is. Runs on variables with the same values
go through just for the high parts of at most `count` digits but one, and give the same
point. -/
theorem scaleShifted_ok_iff (hA : A ≠ 0) (hcount : count ≤ highBits) {P₀ : PointVar Pasta.p}
    {t₀ : ScalarVar} (hP₀ : CircuitType.constantValue? (n := Pasta.p) P₀ = some (ofPoint A))
    (hlo₀ : t₀.lo.expr.toConstant? = some (.ofBool v)) (hhi₀ : t₀.hi.toConstant? = some b)
    (hvar : CircuitType.constantValue? (n := Pasta.p) P = none ∨
      CircuitType.constantValue? (n := Pasta.p) t = none)
    (hstart : start.Proving) (heval : start.evaluates = true)
    (hP : start.Carries P (ofPoint A)) (hlo : start.Carries t.lo v) (hhi : start.Carries t.hi b) :
    (∀ s : Run Pasta.p σ, scaleShifted P₀ t₀ count s =
      .ok (constant (ofPoint ((2 * b.val + v.toNat + 2 ^ 255) • A))) s) ∧
    ((∃ R u, scaleShifted P t count start = .ok R u) ↔
      b.val < 2 ^ count ∧ b.val ≠ tripleHigh) ∧
    ∀ R u, scaleShifted P t count start = .ok R u →
      u.Carries R (ofPoint ((2 * b.val + v.toNat + 2 ^ 255) • A)) := by
  refine ⟨scaleShifted_of_constant hcount hP₀ hlo₀ hhi₀, ⟨?_, ?_⟩, ?_⟩
  · rintro ⟨R, u, hrun⟩
    rw [scaleShifted_of_var hcount hvar] at hrun
    obtain ⟨hlt, hne, -⟩ := scaleShiftedVar_of_ok hA hcount hstart heval hP hlo hhi hrun
    exact ⟨hlt, hne⟩
  · rintro ⟨hlt, hne⟩
    obtain ⟨R, u, hrun, -, -⟩ := scaleShifted_proves hA hP hlo hhi hcount hlt hne hstart
    exact ⟨R, u, hrun⟩
  · intro R u hrun
    rw [scaleShifted_of_var hcount hvar] at hrun
    exact (scaleShiftedVar_of_ok hA hcount hstart heval hP hlo hhi hrun).2.2

theorem scaleShifted_ok_iff_generator :
    ∃ (G : Pallas.Point) (R : PointVar Pasta.p) (u : Run Pasta.p Unit), G ≠ 0 ∧
      scaleShifted ⟨.var 0, .var 1⟩ ⟨⟨.var 2⟩, .var 3⟩ 3 (generatorRun [1, 6]) = .ok R u ∧
      u.Carries R (ofPoint ((2 * 6 + 1 + 2 ^ 255) • G)) ∧
      scaleShifted (constant (ofPoint G)) ⟨.constant true, .const 6⟩ 3 (generatorRun [1, 6]) =
        .ok (constant (ofPoint ((2 * 6 + 1 + 2 ^ 255) • G))) (generatorRun [1, 6]) := by
  obtain ⟨G, hne, hG, hlo, hhi⟩ := exists_generatorRun_scalar 6
  have hs := proving_generatorRun [1, 6]
  have hsix : (6 : Fp).val = 6 := by decide
  have hcount : 3 ≤ highBits := by decide
  have hlo₀ : (⟨.constant true, .const 6⟩ : ScalarVar).lo.expr.toConstant? =
      some (.ofBool true) := Expr.toConstant?_const _
  obtain ⟨hconstant, hok, hcarries⟩ := scaleShifted_ok_iff (t := ⟨⟨.var 2⟩, .var 3⟩) hne hcount
    (constantValue?_constant _) hlo₀ (Expr.toConstant?_const 6) (.inl rfl) hs rfl hG hlo hhi
  obtain ⟨R, u, hrun⟩ := hok.mpr ⟨by decide, by decide⟩
  have hR := hcarries R u hrun
  have hvalue := hconstant (generatorRun [1, 6])
  rw [hsix] at hR hvalue
  exact ⟨G, R, u, hne, hrun, hR, hvalue⟩

theorem scaleShifted_constant_wide :
    (generatorRun [1, 8]).Proving ∧ (generatorRun [1, 8]).evaluates = true ∧
    (generatorRun [1, 8]).Carries (⟨.var 2⟩ : BoolVar Pasta.p) true ∧
    (generatorRun [1, 8]).Carries (.var 3 : Expr Pasta.p) (8 : Fp) ∧
    ∃ G : Pallas.Point, G ≠ 0 ∧
      (generatorRun [1, 8]).Carries (⟨.var 0, .var 1⟩ : PointVar Pasta.p) (ofPoint G) ∧
      (∀ R u, scaleShifted ⟨.var 0, .var 1⟩ ⟨⟨.var 2⟩, .var 3⟩ 3 (generatorRun [1, 8]) ≠
        .ok R u) ∧
      scaleShifted (constant (ofPoint G)) ⟨.constant true, .const 8⟩ 3 (generatorRun [1, 8]) =
        .ok (constant (ofPoint ((2 * 8 + 1 + 2 ^ 255) • G))) (generatorRun [1, 8]) := by
  obtain ⟨G, hne, hG, hlo, hhi⟩ := exists_generatorRun_scalar 8
  have hs := proving_generatorRun [1, 8]
  have height : (8 : Fp).val = 8 := by decide
  have hcount : 3 ≤ highBits := by decide
  refine ⟨hs, rfl, hlo, hhi, G, hne, hG, fun R u hrun => ?_, ?_⟩
  · rw [scaleShifted_of_var hcount (.inl rfl)] at hrun
    obtain ⟨hlt, -⟩ := scaleShiftedVar_of_ok (t := ⟨⟨.var 2⟩, .var 3⟩) hne hcount hs rfl hG hlo
      hhi hrun
    rw [height] at hlt
    omega
  · have hconstant := scaleShifted_of_constant (t := ⟨.constant true, .const 8⟩) hcount
      (constantValue?_constant (ofPoint G)) (Expr.toConstant?_const _) (Expr.toConstant?_const 8)
      (generatorRun [1, 8])
    rwa [height] at hconstant

end PointVar

end PallasCircuits
