import PallasCircuits.Proofs.Gadget.Scalar
import PallasCircuits.Proofs.HonestScaling

namespace PallasCircuits

open Builder Coordinates

variable {σ : Type}

/-! Scalars come in three forms, field elements, limbs and shifted scalars. -/

namespace ScalarVar

section

variable {start : Run Pasta.p σ} {x : Expr Pasta.p}

/-- The shifted form of a field element stands for it modulo `q`, with both parts in range. Any
values that satisfy the constraints are those of the element, what honest provers compute
satisfies them, and constants are decoded to the same scalar. -/
theorem ofExpr_represents :
    (x.toConstant? = none → start.Recording →
      (start.hasValues = false → ∃ t u, ofExpr x start = .ok t u) ∧
      ∀ t u, ofExpr x start = .ok t u →
        (∀ ρ : Nat → Fp, (∀ c ∈ start.recordedSince u, c.Holds ρ) →
          (t.lo.expr.eval ρ = 0 ∨ t.lo.expr.eval ρ = 1) ∧
          (t.hi.eval ρ).val < 2 ^ 254 ∧
          2 * (t.hi.eval ρ).val + (t.lo.expr.eval ρ).val + 2 ^ 255 ≡
            (x.eval ρ).val [MOD Pasta.q]) ∧
        ∀ ρ ρ' : Nat → Fp, (∀ c ∈ start.recordedSince u, c.Holds ρ) →
          (∀ c ∈ start.recordedSince u, c.Holds ρ') → x.eval ρ = x.eval ρ' →
            t.lo.expr.eval ρ = t.lo.expr.eval ρ' ∧ t.hi.eval ρ = t.hi.eval ρ') ∧
    (start.Proving → ∀ a : Fp, start.Carries x a →
      ∃ t u, ofExpr x start = .ok t u ∧ start.Advances u ∧
        (∀ c ∈ start.recordedSince u, c.Holds u.assignment) ∧
        unshift (t.lo.expr.eval u.assignment) (t.hi.eval u.assignment) = (a.val : Fq)) ∧
    ∀ a : Fp, x.toConstant? = some a →
      ∃ t, ofExpr x start = .ok t start ∧
        CircuitType.constantValue? (n := Pasta.p) t = some (a.val : Fq) := by
  refine ⟨fun hx hstart => ⟨fun hvalues => ?_, fun t u hrun => ?_⟩, fun hstart a ha => ?_,
    fun a hconstant => ⟨constant (a.val : Fq), ?_, constantValue?_constant _⟩⟩
  · obtain ⟨t, u, hrun, -⟩ := ofExpr_builds x start ⟨hstart, hvalues⟩
    exact ⟨t, u, hrun⟩
  · have hparts : ∀ ρ : Nat → Fp, (∀ c ∈ start.recordedSince u, c.Holds ρ) →
        t.lo.Means ρ ((x.eval ρ).val.testBit 0) ∧
          (t.hi.eval ρ).val = (x.eval ρ).val / 2 + PointVar.degenerateHigh := fun ρ hholds =>
      (ofExpr_ensures hx).of_recordedSince hstart hrun hholds
    constructor
    · intro ρ hholds
      obtain ⟨hlo, hhi⟩ := hparts ρ hholds
      obtain ⟨hshort, -, hsum⟩ := unreduced_spec (x.eval ρ)
      refine ⟨?_, by rwa [hhi], ?_⟩
      · rw [hlo]
        cases (x.eval ρ).val.testBit 0 with
        | false => exact .inl rfl
        | true => exact .inr rfl
      · rw [hhi, hlo, Residue.val_ofBool, hsum]
        exact Nat.add_mul_mod_self_left _ _ _
    · intro ρ ρ' hholds hholds' hsame
      obtain ⟨hlo, hhi⟩ := hparts ρ hholds
      obtain ⟨hlo', hhi'⟩ := hparts ρ' hholds'
      rw [← hsame] at hlo' hhi'
      exact ⟨hlo.trans hlo'.symm, Residue.ext (hhi.trans hhi'.symm)⟩
  · obtain ⟨t, u, hrun, hadvances, v, b, hlo, hhi, -, -, hvalue⟩ := ofExpr_unshift_proves ha hstart
    refine ⟨t, u, hrun, hadvances, hadvances.holds_recordedSince, ?_⟩
    rwa [(Run.carries_bool.mp hlo).eval, hhi.eval]
  · rw [ofExpr, hconstant]
    rfl

theorem ofExpr_represents_five :
    (∃ t u, ofExpr (.var 0) (Run.start 1 true () : Run Pasta.p Unit) = .ok t u) ∧
    (∃ t u, ofExpr (.var 0) (.proof [5] () : Run Pasta.p Unit) = .ok t u ∧
      (∀ c ∈ (Run.proof [5] ()).recordedSince u, c.Holds u.assignment) ∧
      (t.hi.eval u.assignment).val < 2 ^ 254 ∧
      unshift (t.lo.expr.eval u.assignment) (t.hi.eval u.assignment) = ((5 : Fp).val : Fq)) ∧
    ∃ t, ofExpr (.const 5) (.proof [5] () : Run Pasta.p Unit) = .ok t (.proof [5] ()) ∧
      CircuitType.constantValue? (n := Pasta.p) t = some ((5 : Fp).val : Fq) := by
  have hvar : (.var 0 : Expr Pasta.p).toConstant? = none := Expr.toConstant?_var 0
  have hs : (.proof [5] () : Run Pasta.p Unit).Proving := Run.proving_proof [5] ()
  have hfive : (.proof [5] () : Run Pasta.p Unit).Carries (.var 0 : Expr Pasta.p) (5 : Fp) :=
    hs.carries_var rfl
  refine ⟨(ofExpr_represents.1 hvar ⟨rfl, rfl⟩).1 rfl, ?_,
    ofExpr_represents.2.2 5 (Expr.toConstant?_const 5)⟩
  obtain ⟨t, u, hrun, hadvances, hholds, hvalue⟩ := ofExpr_represents.2.1 hs 5 hfive
  exact ⟨t, u, hrun, hholds,
    (((ofExpr_represents.1 hvar hs.toRecording).2 t u hrun).1 _ hholds).2.1, hvalue⟩

end

variable {start : Run Pasta.p σ} {x : Limbs (Expr Pasta.p)}

/-- Just the reduced scalars have a shifted form, and only one. That is so of all values that
satisfy the constraints, with the limbs in range, of what honest provers compute, and of
constants. -/
theorem ofLimbs_eq_shift :
    (CircuitType.constantValue? (n := Pasta.p) x = none → start.Recording →
      (start.hasValues = false → ∃ t u, ofLimbs x start = .ok t u) ∧
      ∀ t u, ofLimbs x start = .ok t u →
        ∀ ρ : Nat → Fp, (∀ c ∈ start.recordedSince u, c.Holds ρ) → (x.eval ρ).InRange →
          (x.eval ρ).toNat < Pasta.q ∧
          (t.lo.expr.eval ρ = 0 ∨ t.lo.expr.eval ρ = 1) ∧
          (2 * (t.hi.eval ρ).val + (t.lo.expr.eval ρ).val : ℤ) =
            ((x.eval ρ).toNat - 2 ^ 255) % Pasta.q ∧
          (CircuitType.toExprs (n := Pasta.p) t).map (·.eval ρ) =
            CircuitType.encode ScalarVar ((x.eval ρ).toNat : Fq)) ∧
    (start.Proving → ∀ k < 2 ^ 264, start.Carries x k →
      (k < Pasta.q →
        ∃ t u, ofLimbs x start = .ok t u ∧ start.Advances u ∧ u.Carries t (k : Fq)) ∧
      (Pasta.q ≤ k → CircuitType.constantValue? (n := Pasta.p) x = none →
        start.evaluates = true →
          ∃ violation u, ofLimbs x start = .error (.violation violation) u)) ∧
    ∀ k, CircuitType.constantValue? (n := Pasta.p) x = some k →
      (k < Pasta.q → ofLimbs x start = .ok (constant (k : Fq)) start) ∧
      (Pasta.q ≤ k → ofLimbs x start = .error (.setup (.notBelow k Pasta.q)) start) := by
  refine ⟨fun hvar hstart => ⟨fun hvalues => ?_, fun t u hrun ρ hholds hx => ?_⟩,
    fun hstart k hk hx => ⟨fun hlt => ofLimbs_proves hx hlt hstart, fun hle hvar heval => ?_⟩,
    fun k hconstant => ⟨fun hlt => ?_, fun hle => ?_⟩⟩
  · obtain ⟨t, u, hrun, -⟩ := ofLimbsVar_builds hvar start ⟨hstart, hvalues⟩
    refine ⟨t, u, ?_⟩
    rwa [ofLimbs, hvar]
  · rw [ofLimbs, hvar] at hrun
    obtain ⟨hlt, hlo, hhi⟩ := (ofLimbsVar_ensures x).of_recordedSince hstart hrun hholds hx
    have hloVal : (t.lo.expr.eval ρ).val = (shift ((x.eval ρ).toNat : Fq)).1.toNat := by
      rw [hlo, Residue.val_ofBool]
    refine ⟨hlt, ?_, ?_, ?_⟩
    · rw [hlo]
      cases (shift ((x.eval ρ).toNat : Fq)).1 with
      | false => exact .inl rfl
      | true => exact .inr rfl
    · rw [hloVal, hhi]
      exact shift_parts _
    · have hhi' : t.hi.eval ρ = .ofNat (shift ((x.eval ρ).toNat : Fq)).2 := by
        rw [← hhi, Residue.ofNat_val]
      simp only [CircuitType.toExprs, CircuitType.encode, List.map_cons, List.map_nil, hhi']
      rw [hlo]
  · obtain ⟨u, hfault⟩ := ofLimbsVar_fails heval hx hvar hk hle hstart
    simp only [ofLimbs, hvar]
    exact ⟨_, u, hfault⟩
  · simp only [ofLimbs, hconstant, if_pos hlt]
    rfl
  · simp only [ofLimbs, hconstant, if_neg (not_lt.mpr hle)]
    rfl

def limbsRun (k : Nat) : Run Pasta.p Unit :=
  .proof (CircuitType.encode (Limbs (Expr Pasta.p)) k) ()

theorem proving_limbsRun (k : Nat) : (limbsRun k).Proving :=
  Run.proving_proof _ ()

theorem carries_limbsRun (k : Nat) :
    (limbsRun k).Carries (⟨.var 0, .var 1, .var 2⟩ : Limbs (Expr Pasta.p)) k := by
  have hs := proving_limbsRun k
  exact Run.carriesAll_limbs.mpr ⟨hs.carries_var rfl, hs.carries_var rfl, hs.carries_var rfl⟩

theorem ofLimbs_eq_shift_limbsRun :
    (∃ t u, ofLimbs ⟨.var 0, .var 1, .var 2⟩ (Run.start 3 true () : Run Pasta.p Unit) =
      .ok t u) ∧
    (∃ t u, ofLimbs ⟨.var 0, .var 1, .var 2⟩ (limbsRun 5) = .ok t u ∧
      (limbsRun 5).Advances u ∧ u.Carries t ((5 : Nat) : Fq) ∧
      (2 * (t.hi.eval u.assignment).val + (t.lo.expr.eval u.assignment).val : ℤ) =
        (5 - 2 ^ 255) % Pasta.q) ∧
    (∃ violation u, ofLimbs ⟨.var 0, .var 1, .var 2⟩ (limbsRun Pasta.q) =
      .error (.violation violation) u) ∧
    ofLimbs (.constant 5) (limbsRun 5) = .ok (constant ((5 : Nat) : Fq)) (limbsRun 5) ∧
    ofLimbs (.constant Pasta.q) (limbsRun 5) =
      .error (.setup (.notBelow Pasta.q Pasta.q)) (limbsRun 5) := by
  have hvar : CircuitType.constantValue? (n := Pasta.p)
      (⟨.var 0, .var 1, .var 2⟩ : Limbs (Expr Pasta.p)) = none := rfl
  have hfive := carries_limbsRun 5
  have hq : Pasta.q < 2 ^ 264 := by
    have hlt := PastaPrime.lt_two_pow (n := Pasta.q)
    omega
  have hfits : 5 < 2 ^ 264 := (by decide : 5 < Pasta.q).trans hq
  have hs := proving_limbsRun 5
  obtain ⟨t, u, hrun, hadvances, ht⟩ :=
    (ofLimbs_eq_shift.2.1 hs 5 hfits hfive).1 (by decide)
  have hsmall : 5 < 2 ^ 265 := by
    refine Nat.lt_of_lt_of_le hfits ?_
    gcongr
    · decide
    · decide
  have hvalue : Limbs.eval u.assignment ⟨.var 0, .var 1, .var 2⟩ = Limbs.ofNat 5 :=
    Limbs.eval_of_carries (hfive.mono hadvances) hsmall
  obtain ⟨-, -, hparts, -⟩ := (ofLimbs_eq_shift.1 hvar hs.toRecording).2 t u hrun u.assignment
    hadvances.holds_recordedSince (by
      rw [hvalue]
      exact Limbs.inRange_ofNat hfits)
  rw [hvalue, Limbs.toNat_ofNat] at hparts
  refine ⟨(ofLimbs_eq_shift.1 hvar ⟨rfl, rfl⟩).1 rfl, ⟨t, u, hrun, hadvances, ht, hparts⟩, ?_,
    ?_, ?_⟩
  · exact (ofLimbs_eq_shift.2.1 (proving_limbsRun _) Pasta.q hq (carries_limbsRun _)).2 le_rfl
      hvar rfl
  · exact (ofLimbs_eq_shift.2.2 5 (by decide +kernel)).1 (by decide)
  · exact (ofLimbs_eq_shift.2.2 Pasta.q (by decide +kernel)).2 le_rfl

end ScalarVar

namespace PointVar

variable {start : Run Pasta.p σ} {P : PointVar Pasta.p} {A : Pallas.Point}

/-- Honest runs of a multiplication go through and give the same point, whether they take the
scalar as a field element, shift it, or get it in limbs that are then shifted. -/
theorem scale_eq_scaleShifted (hA : A ≠ 0) {x : Expr Pasta.p} {l : Limbs (Expr Pasta.p)} {a : Fp}
    (hstart : start.Proving) (hP : start.Carries P (ofPoint A)) (hx : start.Carries x a)
    (hl : start.Carries l a.val) :
    (∃ R u, scale P x start = .ok R u ∧ start.Advances u ∧
      u.Carries R (ofPoint (a.val • A))) ∧
    (∃ R u, (ScalarVar.ofExpr x >>= fun t => scaleShifted P t highBits) start = .ok R u ∧
      start.Advances u ∧ u.Carries R (ofPoint (a.val • A))) ∧
    ∃ R u, (ScalarVar.ofLimbs l >>= fun t => scaleShifted P t highBits) start = .ok R u ∧
      start.Advances u ∧ u.Carries R (ofPoint (a.val • A)) := by
  have hlt : a.val < Pasta.q := a.isLt.trans (by decide)
  have hval : (a.val : Fq).val = a.val := Residue.val_natCast_of_lt hlt
  refine ⟨scale_proves hA hP hx hstart, ?_, ?_⟩
  · exact (ScalarVar.ofExpr_proves hx).bind (fun u t hu ht =>
      scaleShifted_proves_of_actsAs hA (hP.mono hu) ht) hstart
  · refine (ScalarVar.ofLimbs_proves hl hlt).bind (fun u t hu ht => ?_) hstart
    have hacts := ScalarVar.actsAs_of_carries ht
    rw [hval] at hacts
    exact scaleShifted_proves_of_actsAs hA (hP.mono hu) hacts

theorem scale_eq_scaleShifted_generator :
    ∃ (G : Pallas.Point) (R₁ R₂ R₃ : PointVar Pasta.p) (u₁ u₂ u₃ : Run Pasta.p Unit), G ≠ 0 ∧
      scale ⟨.var 0, .var 1⟩ (.var 2) (generatorRun [5, 5, 0, 0]) = .ok R₁ u₁ ∧
      (ScalarVar.ofExpr (.var 2) >>= fun t => scaleShifted ⟨.var 0, .var 1⟩ t highBits)
        (generatorRun [5, 5, 0, 0]) = .ok R₂ u₂ ∧
      (ScalarVar.ofLimbs ⟨.var 3, .var 4, .var 5⟩ >>= fun t =>
        scaleShifted ⟨.var 0, .var 1⟩ t highBits) (generatorRun [5, 5, 0, 0]) = .ok R₃ u₃ ∧
      u₁.Carries R₁ (ofPoint (5 • G)) ∧ u₂.Carries R₂ (ofPoint (5 • G)) ∧
      u₃.Carries R₃ (ofPoint (5 • G)) := by
  obtain ⟨G, hne, hG⟩ := exists_generatorRun [5, 5, 0, 0]
  have hs := proving_generatorRun [5, 5, 0, 0]
  have hx : (generatorRun [5, 5, 0, 0]).Carries (.var 2 : Expr Pasta.p) (5 : Fp) :=
    hs.carries_var rfl
  have hfive : (5 : Fp).val = 5 := by decide
  have hl : (generatorRun [5, 5, 0, 0]).Carries
      (⟨.var 3, .var 4, .var 5⟩ : Limbs (Expr Pasta.p)) (5 : Fp).val := by
    rw [hfive]
    exact Run.carriesAll_limbs.mpr ⟨hs.carries_var rfl, hs.carries_var rfl, hs.carries_var rfl⟩
  obtain ⟨⟨R₁, u₁, hrun₁, -, hR₁⟩, ⟨R₂, u₂, hrun₂, -, hR₂⟩, R₃, u₃, hrun₃, -, hR₃⟩ :=
    scale_eq_scaleShifted hne hs hG hx hl
  rw [hfive] at hR₁ hR₂ hR₃
  exact ⟨G, R₁, R₂, R₃, u₁, u₂, u₃, hne, hrun₁, hrun₂, hrun₃, hR₁, hR₂, hR₃⟩

end PointVar

end PallasCircuits
