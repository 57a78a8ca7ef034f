import PallasCircuits.Proofs.Gadget.PointCompleteness
import PallasCircuits.Proofs.Proving

namespace PallasCircuits

open Builder Coordinates

variable {σ : Type}

/-! What honest provers get out of a multiplication of a point. -/

namespace Run

variable {n : Nat} [Modulus n]

theorem proving_proof (publicValues : List (Residue n)) (author : σ) :
    (proof publicValues author).Proving where
  toRecording := ⟨rfl, rfl⟩
  toComplete := (satisfied_proof publicValues author).toComplete

theorem Proving.carries_var {s : Run n σ} (hs : s.Proving) {i : Nat} {a : Residue n}
    (h : s.lookup i = some a) : s.Carries (.var i : Expr n) a :=
  carries_expr.mpr (hs.lookup_eq_some h)

end Run

def generatorRun (rest : List Fp) : Run Pasta.p Unit :=
  .proof (Pallas.generator.toCoordinates.toList ++ rest) ()

theorem proving_generatorRun (rest : List Fp) : (generatorRun rest).Proving :=
  Run.proving_proof _ ()

theorem exists_generatorRun (rest : List Fp) :
    ∃ G : Pallas.Point, G ≠ 0 ∧ (generatorRun rest).Carries
      (⟨.var 0, .var 1⟩ : PointVar Pasta.p) (ofPoint G) := by
  obtain ⟨G, hG, hne⟩ := Pallas.exists_generator
  have hs := proving_generatorRun rest
  refine ⟨G, hne, ?_⟩
  rw [← hG.toCoordinates]
  exact Run.carries_point.mpr ⟨hs.carries_var rfl, hs.carries_var rfl⟩

theorem exists_generatorRun_scalar (b : Fp) :
    ∃ G : Pallas.Point, G ≠ 0 ∧
      (generatorRun [1, b]).Carries (⟨.var 0, .var 1⟩ : PointVar Pasta.p) (ofPoint G) ∧
      (generatorRun [1, b]).Carries (⟨.var 2⟩ : BoolVar Pasta.p) true ∧
      (generatorRun [1, b]).Carries (.var 3 : Expr Pasta.p) b := by
  obtain ⟨G, hne, hG⟩ := exists_generatorRun [1, b]
  have hs := proving_generatorRun [1, b]
  exact ⟨G, hne, hG, Run.carries_bool.mpr (hs.carries_var rfl), hs.carries_var rfl⟩

namespace PointVar

variable {start : Run Pasta.p σ} {P : PointVar Pasta.p} {A : Pallas.Point}

/-- Honest runs of a multiplication by a field element go through, and give the multiple by
the canonical representative, `(0, 0)` being the point at infinity. Constants are multiplied
outside of the circuit, with the same result. -/
theorem scale_honest (hA : A ≠ 0) {x : Expr Pasta.p} {a : Fp} :
    (start.Proving → start.Carries P (ofPoint A) → start.Carries x a →
      ∃ R t, scale P x start = .ok R t ∧ start.Advances t ∧
        t.Carries R (ofPoint (a.val • A))) ∧
    (CircuitType.constantValue? (n := Pasta.p) P = some (ofPoint A) → x.toConstant? = some a →
      scale P x start = .ok (constant (ofPoint (a.val • A))) start) := by
  constructor
  · intro hstart hP hx
    exact scale_proves hA hP hx hstart
  · intro hP hx
    have hlt : a.val < Pasta.q := a.isLt.trans (by decide)
    simp only [scale, hP, hx]
    rw [scaleConstant_eq, Residue.val_ofNat, Nat.mod_eq_of_lt hlt]
    rfl

theorem scale_honest_generator :
    ∃ (G : Pallas.Point) (R : PointVar Pasta.p) (t : Run Pasta.p Unit), G ≠ 0 ∧
      scale ⟨.var 0, .var 1⟩ (.var 2) (generatorRun [5]) = .ok R t ∧
      (generatorRun [5]).Advances t ∧ t.Carries R (ofPoint (5 • G)) ∧
      scale (constant (ofPoint G)) (.const 5) (generatorRun [5]) =
        .ok (constant (ofPoint (5 • G))) (generatorRun [5]) := by
  obtain ⟨G, hne, hG⟩ := exists_generatorRun [5]
  have hs := proving_generatorRun [5]
  have hx : (generatorRun [5]).Carries (.var 2 : Expr Pasta.p) (5 : Fp) := hs.carries_var rfl
  have hfive : (5 : Fp).val = 5 := by decide
  obtain ⟨R, t, hrun, hadvances, hR⟩ := (scale_honest hne).1 hs hG hx
  have hconstant : scale (constant (ofPoint G)) (.const 5) (generatorRun [5]) = _ :=
    (scale_honest hne).2 (constantValue?_constant _) (Expr.toConstant?_const 5)
  rw [hfive] at hR hconstant
  exact ⟨G, R, t, hne, hrun, hadvances, hR, hconstant⟩

/-- Honest runs of a multiplication by a shifted scalar, of which not everything is constant,
go through and give the multiple for all high parts of at most `count` digits but one. Twice
that high part and one more, shifted, is three times the order, so the multiple on the way is
infinity, which the gate does not accept. -/
theorem scaleShifted_honest (hA : A ≠ 0) {t : ScalarVar} {v : Bool} {b : Fp} {count : Nat}
    (hcount : count ≤ highBits) (hb : b.val < 2 ^ count)
    (hvar : CircuitType.constantValue? (n := Pasta.p) P = none ∨
      CircuitType.constantValue? (n := Pasta.p) t = none)
    (hstart : start.Proving) (hP : start.Carries P (ofPoint A)) (hlo : start.Carries t.lo v)
    (hhi : start.Carries t.hi b) :
    (b.val ≠ tripleHigh →
      ∃ R u, scaleShifted P t count start = .ok R u ∧ start.Advances u ∧
        u.Carries R (ofPoint ((2 * b.val + v.toNat + 2 ^ 255) • A))) ∧
    (b.val = tripleHigh → start.evaluates = true →
      ∃ u, scaleShifted P t count start = .error (.violation (.scaling .degenerate)) u) := by
  constructor
  · intro hne
    exact scaleShifted_proves hA hP hlo hhi hcount hb hne hstart
  · intro htriple heval
    rw [scaleShifted_of_var hcount hvar]
    exact scaleShiftedVar_fails hA heval hP hhi hb htriple hstart

theorem scaleShifted_honest_generator :
    ∃ (G : Pallas.Point) (R : PointVar Pasta.p) (u : Run Pasta.p Unit), G ≠ 0 ∧
      scaleShifted ⟨.var 0, .var 1⟩ ⟨⟨.var 2⟩, .var 3⟩ 3 (generatorRun [1, 6]) = .ok R u ∧
      (generatorRun [1, 6]).Advances u ∧ u.Carries R (ofPoint ((2 * 6 + 1 + 2 ^ 255) • G)) := by
  obtain ⟨G, hne, hG, hlo, hhi⟩ := exists_generatorRun_scalar 6
  have hs := proving_generatorRun [1, 6]
  have hsix : (6 : Fp).val = 6 := by decide
  have hcount : 3 ≤ highBits := by decide
  have hshort : (6 : Fp).val < 2 ^ 3 := by decide
  obtain ⟨R, u, hrun, hadvances, hR⟩ := (scaleShifted_honest (t := ⟨⟨.var 2⟩, .var 3⟩) hne hcount
    hshort (.inl rfl) hs hG hlo hhi).1 (by decide)
  rw [hsix] at hR
  exact ⟨G, R, u, hne, hrun, hadvances, hR⟩

def tripleRun : Run Pasta.p Unit :=
  generatorRun [1, (tripleHigh : Nat)]

theorem scaleShifted_stuck_tripleRun :
    tripleHigh =
      14474011154664524427946373126085988481727088556502330059655218120611762012161 ∧
    tripleRun.Proving ∧
    tripleRun.Carries (⟨.var 2⟩ : BoolVar Pasta.p) true ∧
    tripleRun.Carries (.var 3 : Expr Pasta.p) ((tripleHigh : Nat) : Fp) ∧
    ((tripleHigh : Nat) : Fp).val < 2 ^ 254 ∧
    ∃ G : Pallas.Point, G ≠ 0 ∧
      tripleRun.Carries (⟨.var 0, .var 1⟩ : PointVar Pasta.p) (ofPoint G) ∧
      ∀ R u, scaleShifted ⟨.var 0, .var 1⟩ ⟨⟨.var 2⟩, .var 3⟩ 254 tripleRun ≠ .ok R u := by
  obtain ⟨G, hne, hG, hlo, hhi⟩ := exists_generatorRun_scalar (tripleHigh : Nat)
  have hs : tripleRun.Proving := proving_generatorRun _
  have hrange : tripleHigh < 2 ^ 254 := by decide
  have hval : ((tripleHigh : Nat) : Fp).val = tripleHigh :=
    Residue.val_natCast_of_lt_two_pow hrange
  refine ⟨by decide, hs, hlo, hhi, hval.symm ▸ hrange, G, hne, hG, fun R u hrun => ?_⟩
  obtain ⟨w, hfault⟩ := scaleShiftedVar_fails (t := ⟨⟨.var 2⟩, .var 3⟩) hne rfl hG hhi
    (hval.symm ▸ hrange) hval hs
  rw [scaleShifted_of_var (by decide) (.inl rfl), tripleRun, hfault] at hrun
  cases hrun

end PointVar

end PallasCircuits
