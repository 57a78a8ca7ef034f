import PallasCircuits.Proofs.Gadget.CurveGroup
import PallasCircuits.Proofs.HonestScaling

namespace PallasCircuits.GroupVar

open Builder Coordinates

variable {σ : Type}

/-! Points inside a circuit form the group of the curve, and its multiples are computed for
infinity as well. -/

/-- What it means for a gadget on two points to compute an operation of the group. A pair of
coordinates is valid if it is `ofPoint A` for some `A`, that is, on the curve or `(0, 0)`. -/
structure Implements (gadget : GroupVar → GroupVar → Builder Pasta.p σ GroupVar)
    (op : Pallas.Point → Pallas.Point → Pallas.Point) : Prop where
  builds : ∀ (g h : GroupVar) (start : Run Pasta.p σ), start.Recording →
    start.hasValues = false → ∃ r t, gadget g h start = .ok r t
  sound : ∀ (g h r : GroupVar) (start t : Run Pasta.p σ), start.Recording →
    gadget g h start = .ok r t → ∀ ρ : Nat → Fp, (∀ c ∈ start.recordedSince t, c.Holds ρ) →
    ∀ A B : Pallas.Point, g.point.eval ρ = ofPoint A → h.point.eval ρ = ofPoint B →
      r.point.eval ρ = ofPoint (op A B)
  complete : ∀ (g h : GroupVar) (start : Run Pasta.p σ), start.Proving →
    ∀ A B : Pallas.Point, start.Carries g.point (ofPoint A) →
      start.Carries h.point (ofPoint B) →
      ∃ r t, gadget g h start = .ok r t ∧ start.Advances t ∧
        t.Carries r.point (ofPoint (op A B))
  constant : ∀ (g h : GroupVar) (A B : Pallas.Point),
    CircuitType.constantValue? (n := Pasta.p) g.point = some (ofPoint A) →
    CircuitType.constantValue? (n := Pasta.p) h.point = some (ofPoint B) →
    ∀ start : Run Pasta.p σ,
      gadget g h start = .ok ⟨.constant (ofPoint (op A B))⟩ start

theorem implements_add :
    Implements (add : GroupVar → GroupVar → Builder Pasta.p σ GroupVar) (· + ·) where
  builds g h start hstart hvalues := by
    obtain ⟨r, t, hrun, -⟩ := add_builds g h start ⟨hstart, hvalues⟩
    exact ⟨r, t, hrun⟩
  sound g h r start t hstart hrun ρ hholds :=
    (add_ensures g h).of_recordedSince hstart hrun hholds
  complete g h start hstart A B hg hh := add_proves hg hh hstart
  constant g h A B hg hh start := by
    have hsum := (Pallas.represents_ofCoordinates A).add (Pallas.represents_ofCoordinates B)
    simp only [add, CircuitType.constantValue?_group, hg, hh, Option.map_some]
    rw [← hsum.toCoordinates]
    rfl

theorem implements_sub :
    Implements (sub : GroupVar → GroupVar → Builder Pasta.p σ GroupVar) (· - ·) where
  builds g h := implements_add.builds g (neg h)
  sound g h r start t hstart hrun ρ hholds :=
    (sub_ensures g h).of_recordedSince hstart hrun hholds
  complete g h start hstart A B hg hh := sub_proves hg hh hstart
  constant g h A B hg hh start := by
    have hneg := PointVar.constantValue?_neg hh
    rw [← ofPoint_neg] at hneg
    simp only [sub_eq_add_neg]
    exact implements_add.constant g (neg h) A (-B) hg hneg start

/-- Sums and differences follow the group law, whichever of the operands and of the result
are infinity, and however the operands are related. -/
theorem add_sub_implement :
    Implements (add : GroupVar → GroupVar → Builder Pasta.p σ GroupVar) (· + ·) ∧
      Implements (sub : GroupVar → GroupVar → Builder Pasta.p σ GroupVar) (· - ·) :=
  ⟨implements_add, implements_sub⟩

def generatorVar : GroupVar :=
  ⟨⟨.var 0, .var 1⟩⟩

theorem add_sub_implement_generator :
    ∃ (G : Pallas.Point) (r r' : GroupVar) (t t' : Run Pasta.p Unit), G ≠ 0 ∧
      add generatorVar generatorVar (generatorRun []) = .ok r t ∧
      (∀ c ∈ (generatorRun []).recordedSince t, c.Holds t.assignment) ∧
      r.point.eval t.assignment = ofPoint (G + G) ∧
      sub generatorVar generatorVar (generatorRun []) = .ok r' t' ∧
      (∀ c ∈ (generatorRun []).recordedSince t', c.Holds t'.assignment) ∧
      r'.point.eval t'.assignment = ofPoint (G - G) := by
  obtain ⟨G, hne, hG⟩ := exists_generatorRun []
  have hs := proving_generatorRun []
  obtain ⟨hadd, hsub⟩ := add_sub_implement (σ := Unit)
  obtain ⟨r, t, hrun, hadvances, -⟩ := hadd.complete generatorVar generatorVar _ hs G G hG hG
  obtain ⟨r', t', hrun', hadvances', -⟩ :=
    hsub.complete generatorVar generatorVar _ hs G G hG hG
  have hholds := hadvances.holds_recordedSince
  have hholds' := hadvances'.holds_recordedSince
  have hvalue := PointVar.eval_of_carries (hG.mono hadvances)
  have hvalue' := PointVar.eval_of_carries (hG.mono hadvances')
  exact ⟨G, r, r', t, t', hne, hrun, hholds,
    hadd.sound _ _ r _ t hs.toRecording hrun _ hholds G G hvalue hvalue, hrun', hholds',
    hsub.sound _ _ r' _ t' hs.toRecording hrun' _ hholds' G G hvalue' hvalue'⟩

/-! ### Multiples -/

/-- Multiplications by field elements and by shifted scalars give the multiple of any point,
infinity included. -/
theorem scale_scaleShifted_eq_nsmul (g : GroupVar) (start : Run Pasta.p σ) :
    (start.Recording → start.hasValues = false →
      (∀ x, ∃ r t, scale g x start = .ok r t) ∧ ∀ s, ∃ r t, scaleShifted g s start = .ok r t) ∧
    (start.Recording → ∀ (ρ : Nat → Fp) (A : Pallas.Point), g.point.eval ρ = ofPoint A →
      (∀ x r t, scale g x start = .ok r t → (∀ c ∈ start.recordedSince t, c.Holds ρ) →
        r.point.eval ρ = ofPoint ((x.eval ρ).val • A)) ∧
      ∀ s r t, scaleShifted g s start = .ok r t → (∀ c ∈ start.recordedSince t, c.Holds ρ) →
        s.lo.expr.eval ρ = 0 ∨ s.lo.expr.eval ρ = 1 →
        r.point.eval ρ =
          ofPoint ((2 * (s.hi.eval ρ).val + (s.lo.expr.eval ρ).val + 2 ^ 255) • A)) ∧
    (start.Proving → ∀ A : Pallas.Point, start.Carries g.point (ofPoint A) →
      (∀ (x : Expr Pasta.p) (a : Fp), start.Carries x a →
        ∃ r t, scale g x start = .ok r t ∧ start.Advances t ∧
          t.Carries r.point (ofPoint (a.val • A))) ∧
      (∀ (s : ScalarVar) (u : Fq), start.Carries s u →
        ∃ r t, scaleShifted g s start = .ok r t ∧ start.Advances t ∧
          t.Carries r.point (ofPoint (u.val • A))) ∧
      ∀ u : Fq, ∃ r t, (do
          let s : ScalarVar ← witness (pure u)
          scaleShifted g s) start = .ok r t ∧ start.Advances t ∧
        t.Carries r.point (ofPoint (u.val • A))) := by
  refine ⟨fun hstart hvalues => ⟨fun x => ?_, fun s => ?_⟩, fun hstart ρ A hA =>
    ⟨fun x r t hrun hholds => ?_, fun s r t hrun hholds hlo => ?_⟩, fun hstart A hA =>
    ⟨fun x a hx => scale_proves hA hx hstart, fun s u hs => scaleShifted_proves hA hs hstart,
      fun u => witness_scaleShifted_proves hA u hstart⟩⟩
  · obtain ⟨r, t, hrun, -⟩ := scale_builds g x start ⟨hstart, hvalues⟩
    exact ⟨r, t, hrun⟩
  · obtain ⟨r, t, hrun, -⟩ := scaleShifted_builds g s start ⟨hstart, hvalues⟩
    exact ⟨r, t, hrun⟩
  · exact (scale_ensures g x).of_recordedSince hstart hrun hholds A hA
  · obtain ⟨v, hv⟩ := BoolVar.exists_means hlo.symm
    have hresult := (scaleShifted_ensures g hv).of_recordedSince hstart hrun hholds A hA
    rwa [hv, Residue.val_ofBool]

def shiftedRun : Run Pasta.p Unit :=
  generatorRun (CircuitType.encode ScalarVar (7 : Fq))

theorem scale_scaleShifted_eq_nsmul_generator :
    (∃ r t, scale generatorVar (.var 2) (Run.start 3 true () : Run Pasta.p Unit) = .ok r t) ∧
    ∃ G : Pallas.Point, G ≠ 0 ∧
      (∃ r t, scale generatorVar (.const 5) shiftedRun = .ok r t ∧
        (∀ c ∈ shiftedRun.recordedSince t, c.Holds t.assignment) ∧
        r.point.eval t.assignment = ofPoint (5 • G)) ∧
      ∃ r t, scaleShifted generatorVar ⟨⟨.var 2⟩, .var 3⟩ shiftedRun = .ok r t ∧
        (∀ c ∈ shiftedRun.recordedSince t, c.Holds t.assignment) ∧
        t.Carries r.point (ofPoint (7 • G)) ∧
        r.point.eval t.assignment =
          ofPoint ((2 * (t.assignment 3).val + (t.assignment 2).val + 2 ^ 255) • G) := by
  obtain ⟨G, hne, hG⟩ : ∃ G : Pallas.Point, G ≠ 0 ∧
      shiftedRun.Carries generatorVar.point (ofPoint G) := exists_generatorRun _
  have hs : shiftedRun.Proving := proving_generatorRun _
  have hscalar : shiftedRun.Carries (⟨⟨.var 2⟩, .var 3⟩ : ScalarVar) (7 : Fq) :=
    Run.carriesAll_cons.mpr ⟨hs.carries_var rfl, Run.carriesAll_cons.mpr
      ⟨hs.carries_var rfl, Run.carriesAll_nil⟩⟩
  obtain ⟨hscale, hshifted, -⟩ :=
    (scale_scaleShifted_eq_nsmul generatorVar shiftedRun).2.2 hs G hG
  have hfive : (5 : Fp).val = 5 := by decide
  have hseven : (7 : Fq).val = 7 := by decide
  obtain ⟨r, t, hrun, hadvances, -⟩ := hscale (.const 5) 5 (.const 5)
  obtain ⟨r', t', hrun', hadvances', hr'⟩ := hshifted _ 7 hscalar
  have hsound := (scale_scaleShifted_eq_nsmul generatorVar shiftedRun).2.1 hs.toRecording
  have hholds := hadvances.holds_recordedSince
  have hholds' := hadvances'.holds_recordedSince
  have hvalue := (hsound t.assignment G (PointVar.eval_of_carries (hG.mono hadvances))).1
    (.const 5) r t hrun hholds
  have hlo : t'.assignment 2 = 0 ∨ t'.assignment 2 = 1 := by
    have hbit := (Run.carries_bool.mp (Run.carries_scalar.mp (hscalar.mono hadvances')).1).eval
    simp only [Expr.eval_var] at hbit
    rw [hbit]
    cases (ScalarVar.shift 7).1 with
    | false => exact .inl rfl
    | true => exact .inr rfl
  have hvalue' := (hsound t'.assignment G (PointVar.eval_of_carries (hG.mono hadvances'))).2
    _ r' t' hrun' hholds' hlo
  rw [Expr.eval_const, hfive] at hvalue
  rw [hseven] at hr'
  exact ⟨((scale_scaleShifted_eq_nsmul generatorVar _).1 ⟨rfl, rfl⟩ rfl).1 (.var 2), G, hne,
    ⟨r, t, hrun, hholds, hvalue⟩, r', t', hrun', hholds', hr', hvalue'⟩

end PallasCircuits.GroupVar
