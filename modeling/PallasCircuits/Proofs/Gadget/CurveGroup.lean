import PallasCircuits.Gadget.CurveGroup
import PallasCircuits.Proofs.Gadget.PointCompleteness

namespace PallasCircuits.GroupVar

open Builder Coordinates

variable {σ : Type}

/-! The group law inside a circuit, with infinity as one of the points. -/

/-! ### Cases of the group law -/

section

variable {A B : Pallas.Point}

theorem opposite_ofPoint (A B : Pallas.Point) :
    AdditionGate.opposite (ofPoint A) (ofPoint B) = true ↔ A ≠ 0 ∧ B ≠ 0 ∧ A + B = 0 := by
  by_cases hA : A = 0
  · have hopposite : AdditionGate.opposite (ofPoint A) (ofPoint B) = false := by
      by_cases hB : B = 0
      · rw [hA, hB]
        rfl
      · rw [hA]
        exact AdditionGate.opposite_of_x_ne (Pallas.ofPoint_x_ne_zero hB).symm
    rw [hopposite]
    simp [hA]
  · by_cases hB : B = 0
    · have hopposite : AdditionGate.opposite (ofPoint A) (ofPoint B) = false := by
        rw [hB]
        exact AdditionGate.opposite_of_x_ne (Pallas.ofPoint_x_ne_zero hA)
      rw [hopposite]
      simp [hB]
    · rw [AdditionGate.opposite_iff (locates_ofPoint hA) (locates_ofPoint hB)
        (Pallas.add_self_ne_zero hA)]
      simp [hA, hB]

/-- The cases of a sum of two points: both are infinity, only the first is, only the second
is, they are opposite, or none of these. -/
def sumCases (P Q : Coordinates Fp) : List Bool :=
  let special := [decide (P = 0) && decide (Q = 0), decide (P = 0) && !decide (Q = 0),
    decide (Q = 0) && !decide (P = 0), AdditionGate.opposite P Q]
  special ++ [!special.any id]

theorem exists_selects_sumCases {α : Type} (value : α → Coordinates Fp) {none g h sum : α}
    (hnone : value none = 0) (hg : value g = ofPoint A) (hh : value h = ofPoint B)
    (hsum : A ≠ 0 → B ≠ 0 → A + B ≠ 0 → value sum = ofPoint (A + B)) :
    ∃ x, Selects (sumCases (ofPoint A) (ofPoint B)) [none, h, g, none, sum] x ∧
      value x = ofPoint (A + B) := by
  have hopposite := opposite_ofPoint A B
  have hzeroA := Pallas.ofPoint_eq_zero_iff (A := A)
  have hzeroB := Pallas.ofPoint_eq_zero_iff (A := B)
  by_cases hA : A = 0
  · by_cases hB : B = 0
    · have hcases : sumCases (ofPoint A) (ofPoint B) = [true, false, false, false, false] := by
        simp_all [sumCases]
      refine ⟨none, hcases ▸ .here (by simp) rfl, ?_⟩
      rw [hnone, hA, hB, add_zero, ofPoint_zero]
    · have hcases : sumCases (ofPoint A) (ofPoint B) = [false, true, false, false, false] := by
        simp_all [sumCases]
      refine ⟨h, hcases ▸ .there (.here (by simp) rfl), ?_⟩
      rw [hh, hA, zero_add]
  · by_cases hB : B = 0
    · have hcases : sumCases (ofPoint A) (ofPoint B) = [false, false, true, false, false] := by
        simp_all [sumCases]
      refine ⟨g, hcases ▸ .there (.there (.here (by simp) rfl)), ?_⟩
      rw [hg, hB, add_zero]
    · by_cases hAB : A + B = 0
      · have hcases : sumCases (ofPoint A) (ofPoint B) = [false, false, false, true, false] := by
          simp_all [sumCases]
        refine ⟨none, hcases ▸ .there (.there (.there (.here (by simp) rfl))), ?_⟩
        rw [hnone, hAB, ofPoint_zero]
      · have hcases : sumCases (ofPoint A) (ofPoint B) = [false, false, false, false, true] := by
          simp_all [sumCases]
        exact ⟨sum, hcases ▸ .there (.there (.there (.there (.here (by simp) rfl)))),
          hsum hA hB hAB⟩

end

def sumMask (g h : GroupVar) (isInfinity : BoolVar Pasta.p) :
    Builder Pasta.p σ (List (BoolVar Pasta.p)) := do
  let gZero ← g.isZero
  let hZero ← h.isZero
  let bothZero ← gZero.and hZero
  let onlyG ← gZero.and hZero.not
  let onlyH ← hZero.and gZero.not
  let special ← BoolVar.any [bothZero, onlyG, onlyH, isInfinity]
  return [bothZero, onlyG, onlyH, isInfinity, special.not]

theorem addVar_eq (g h : GroupVar) :
    (addVar g h : Builder Pasta.p σ GroupVar) = (do
      let (sum, isInfinity) ← g.point.add h.point
      let mask ← sumMask g h isInfinity
      BoolVar.switch mask [zero, h, g, zero, ⟨sum⟩]) := by
  simp only [addVar, sumMask, bind_assoc, pure_bind]

theorem decide_eq_zero (P : Coordinates Fp) :
    decide (P = 0) = (decide (P.x = 0) && decide (P.y = 0)) := by
  rw [← Bool.decide_and]
  exact decide_eq_decide.mpr Coordinates.ext_iff

/-! ### What the constraints ensure -/

section

variable {ρ : Nat → Fp}

theorem fields_inj {g h : GroupVar} :
    CircuitType.fields ρ g = CircuitType.fields ρ h ↔ g.point.eval ρ = h.point.eval ρ :=
  CircuitType.fields_point_inj

theorem select_group_ensures (b : BoolVar Pasta.p) (g h : GroupVar) :
    Ensures ρ (b.select g h : Builder Pasta.p σ GroupVar) fun r => ∀ v, b.Means ρ v →
      r.point.eval ρ = if v then g.point.eval ρ else h.point.eval ρ :=
  BoolVar.select_value_ensures fields_inj.mp b g h

theorem isZero_ensures (g : GroupVar) :
    Ensures ρ (isZero g : Builder Pasta.p σ (BoolVar Pasta.p)) fun b =>
      b.Means ρ (decide (g.point.eval ρ = 0)) := by
  unfold isZero
  apply (Expr.isEqual_ensures g.point.x 0).bind
  intro x
  apply (Expr.isEqual_ensures g.point.y 0).bind
  intro y
  refine (BoolVar.and_ensures x y).mono fun b hb hy hx => ?_
  rw [decide_eq_zero]
  exact hb _ _ hx hy

theorem assertOnCurve_ensures (g : GroupVar) :
    Ensures ρ (assertOnCurve g : Builder Pasta.p σ Unit) fun _ =>
      g.point.eval ρ = 0 ∨ g.point.y.eval ρ ^ 2 = g.point.x.eval ρ ^ 3 + Pallas.b := by
  unfold assertOnCurve
  apply (isZero_ensures g).bind
  intro zero
  apply (Expr.square_ensures g.point.x).bind
  intro xx
  apply (Expr.mul_ensures xx g.point.x).bind
  intro xxx
  apply (Expr.square_ensures g.point.y).bind
  intro yy
  refine (Ensures.assert _).mono fun _ hproduct hyy hxxx hxx hzero => ?_
  by_cases hP : g.point.eval ρ = 0
  · exact .inl hP
  · have hnot : zero.not.expr.eval ρ = 1 := by
      have hmeans := hzero.not
      rwa [decide_eq_false hP] at hmeans
    rw [Constraint.holds_product, hnot, one_mul, Expr.eval_minus, Expr.eval_minus, Expr.eval_const,
      Expr.eval_zero, hyy, hxxx, hxx, ← pow_succ, sub_sub, sub_eq_zero] at hproduct
    exact .inr hproduct

theorem sumMask_ensures (g h : GroupVar) (isInfinity : BoolVar Pasta.p) :
    Ensures ρ (sumMask g h isInfinity : Builder Pasta.p σ (List (BoolVar Pasta.p))) fun mask =>
      isInfinity.Means ρ (AdditionGate.opposite (g.point.eval ρ) (h.point.eval ρ)) →
        mask.map (·.expr.eval ρ) =
          (sumCases (g.point.eval ρ) (h.point.eval ρ)).map .ofBool := by
  unfold sumMask
  apply (isZero_ensures g).bind
  intro gZero
  apply (isZero_ensures h).bind
  intro hZero
  apply (BoolVar.and_ensures gZero hZero).bind
  intro bothZero
  apply (BoolVar.and_ensures gZero hZero.not).bind
  intro onlyG
  apply (BoolVar.and_ensures hZero gZero.not).bind
  intro onlyH
  have hfew : 4 < Pasta.p := by decide
  refine (BoolVar.any_ensures [bothZero, onlyG, onlyH, isInfinity] hfew).bind fun special =>
    .pure ?_
  intro hspecial honlyH honlyG hbothZero hhZero hgZero hinfinity
  have hcases : [bothZero, onlyG, onlyH, isInfinity].map (·.expr.eval ρ) = List.map .ofBool _ :=
    BoolVar.evals_cons (hbothZero _ _ hgZero hhZero) <|
      BoolVar.evals_cons (honlyG _ _ hgZero hhZero.not) <|
      BoolVar.evals_cons (honlyH _ _ hhZero hgZero.not) <|
      BoolVar.evals_cons hinfinity BoolVar.evals_nil
  have hlast : [special.not].map (·.expr.eval ρ) = List.map .ofBool _ :=
    BoolVar.evals_cons (hspecial _ hcases).not BoolVar.evals_nil
  exact congrArg₂ (· ++ ·) hcases hlast

theorem addVar_ensures (g h : GroupVar) :
    Ensures ρ (addVar g h : Builder Pasta.p σ GroupVar) fun r =>
      ∀ A B : Pallas.Point, g.point.eval ρ = ofPoint A → h.point.eval ρ = ofPoint B →
        r.point.eval ρ = ofPoint (A + B) := by
  rw [addVar_eq]
  refine .bind ((PointVar.add_flag_ensures g.point h.point).and
    (PointVar.add_ensures (b := Pallas.b) g.point h.point)) ?_
  rintro ⟨sum, isInfinity⟩
  apply (sumMask_ensures g h isInfinity).bind
  intro mask
  refine (BoolVar.switch_ensures mask _).mono ?_
  rintro r hr hmask ⟨hinfinity, hsum⟩ A B hA hB
  have hmask := hmask hinfinity
  rw [hA, hB] at hmask
  obtain ⟨x, hselects, hvalue⟩ := exists_selects_sumCases (fun x : GroupVar => x.point.eval ρ)
    (PointVar.eval_constant 0) hA hB fun hneA hneB hne => ((hsum A B (hA ▸ locates_ofPoint hneA)
      (hB ▸ locates_ofPoint hneB) (Pallas.add_self_ne_zero hneA)).2 hne).2.eq_ofPoint
  exact (fields_inj.mp (hr _ x hmask hselects)).trans hvalue

theorem represents_of_constantValue? {g : GroupVar} {a : Pallas} {A : Pallas.Point}
    (ha : CircuitType.constantValue? (n := Pasta.p) g = some a)
    (hA : g.point.eval ρ = ofPoint A) : a.Represents A := by
  rw [CircuitType.constantValue?_group, Option.map_eq_some_iff] at ha
  obtain ⟨P, hP, rfl⟩ := ha
  rw [← PointVar.eval_of_constantValue? (ρ := ρ) hP, hA]
  exact Pallas.represents_ofCoordinates A

theorem add_ensures (g h : GroupVar) :
    Ensures ρ (add g h : Builder Pasta.p σ GroupVar) fun r =>
      ∀ A B : Pallas.Point, g.point.eval ρ = ofPoint A → h.point.eval ρ = ofPoint B →
        r.point.eval ρ = ofPoint (A + B) := by
  simp only [add]
  cases hg : CircuitType.constantValue? (n := Pasta.p) g with
  | none => exact addVar_ensures g h
  | some a =>
      cases hh : CircuitType.constantValue? (n := Pasta.p) h with
      | none => exact addVar_ensures g h
      | some b =>
          refine .pure fun A B hA hB => ?_
          have hsum := (represents_of_constantValue? hg hA).add (represents_of_constantValue? hh hB)
          exact hsum.toCoordinates

theorem eval_neg (g : GroupVar) : (neg g).point.eval ρ = -g.point.eval ρ :=
  PointVar.eval_neg g.point

theorem sub_ensures (g h : GroupVar) :
    Ensures ρ (sub g h : Builder Pasta.p σ GroupVar) fun r =>
      ∀ A B : Pallas.Point, g.point.eval ρ = ofPoint A → h.point.eval ρ = ofPoint B →
        r.point.eval ρ = ofPoint (A - B) := by
  refine (add_ensures g (neg h)).mono fun r hr A B hA hB => ?_
  rw [sub_eq_add_neg]
  refine hr A (-B) hA ?_
  rw [eval_neg, hB, ofPoint_neg]

theorem scaleWith_ensures (g : GroupVar) (k : Nat)
    {multiple : PointVar Pasta.p → Builder Pasta.p σ (PointVar Pasta.p)}
    (hmultiple : ∀ P, Ensures ρ (multiple P) fun R =>
      ∀ A : Pallas.Point, (P.eval ρ).Locates A → R.eval ρ = ofPoint (k • A)) :
    Ensures ρ (scaleWith g multiple) fun r =>
      ∀ A : Pallas.Point, g.point.eval ρ = ofPoint A → r.point.eval ρ = ofPoint (k • A) := by
  unfold scaleWith
  apply (isZero_ensures g).bind
  intro isZero
  apply (select_group_ensures isZero generator g).bind
  intro base
  apply (hmultiple base.point).bind
  intro result
  refine (select_group_ensures isZero zero ⟨result⟩).mono ?_
  intro r hr hresult hbase hzero A hA
  have hiff : g.point.eval ρ = 0 ↔ A = 0 := by
    rw [hA, Pallas.ofPoint_eq_zero_iff]
  rw [hr _ hzero]
  by_cases hne : A = 0
  · rw [decide_eq_true (hiff.mpr hne), if_pos rfl, hne, nsmul_zero]
    rfl
  · have hfalse := decide_eq_false (mt hiff.mp hne)
    rw [hfalse, if_neg Bool.false_ne_true]
    rw [hfalse] at hzero
    refine hresult A ?_
    rw [hbase false hzero, if_neg Bool.false_ne_true, hA]
    exact locates_ofPoint hne

theorem scale_ensures (g : GroupVar) (x : Expr Pasta.p) :
    Ensures ρ (scale g x : Builder Pasta.p σ GroupVar) fun r =>
      ∀ A : Pallas.Point, g.point.eval ρ = ofPoint A →
        r.point.eval ρ = ofPoint ((x.eval ρ).val • A) :=
  scaleWith_ensures g (x.eval ρ).val fun P => PointVar.scale_ensures P x

theorem scaleShifted_ensures (g : GroupVar) {t : ScalarVar} {v : Bool} (hv : t.lo.Means ρ v) :
    Ensures ρ (scaleShifted g t : Builder Pasta.p σ GroupVar) fun r =>
      ∀ A : Pallas.Point, g.point.eval ρ = ofPoint A →
        r.point.eval ρ = ofPoint ((2 * (t.hi.eval ρ).val + v.toNat + 2 ^ 255) • A) :=
  scaleWith_ensures g (2 * (t.hi.eval ρ).val + v.toNat + 2 ^ 255) fun P =>
    (PointVar.scaleShifted_ensures P t le_rfl).mono fun _ hR A hA => hR A v hA hv

end

/-! ### Setups -/

theorem isZero_builds (g : GroupVar) :
    Builds (isZero g : Builder Pasta.p σ (BoolVar Pasta.p)) fun _ => True :=
  (Expr.isEqual_builds g.point.x 0).bind fun x _ => (Expr.isEqual_builds g.point.y 0).bind
    fun y _ => (BoolVar.and_builds x y).mono fun _ _ => trivial

theorem assertOnCurve_builds (g : GroupVar) :
    Builds (assertOnCurve g : Builder Pasta.p σ Unit) fun _ => True :=
  (isZero_builds g).bind fun _ _ => (Expr.square_builds _).bind fun xx _ =>
    (Expr.mul_builds xx _).bind fun _ _ => (Expr.square_builds _).bind fun _ _ => .assert _

theorem sumMask_builds (g h : GroupVar) {isInfinity : BoolVar Pasta.p}
    (hopen : 0 < isInfinity.expr.occurrences) :
    Builds (sumMask g h isInfinity : Builder Pasta.p σ (List (BoolVar Pasta.p))) fun mask =>
      mask.length = 5 ∧ ∃ b ∈ mask, 0 < b.expr.occurrences := by
  unfold sumMask
  apply (isZero_builds g).bind
  intro gZero _
  apply (isZero_builds h).bind
  intro hZero _
  apply (BoolVar.and_builds gZero hZero).bind
  intro bothZero _
  apply (BoolVar.and_builds gZero hZero.not).bind
  intro onlyG _
  apply (BoolVar.and_builds hZero gZero.not).bind
  intro onlyH _
  exact (BoolVar.any_builds _).bind fun special _ =>
    .pure ⟨rfl, isInfinity, by simp, hopen⟩

/-- The case of opposite points stays open until there are values. -/
theorem addVar_builds {g h : GroupVar}
    (hvar : CircuitType.constantValue? (n := Pasta.p) g.point = none ∨
      CircuitType.constantValue? (n := Pasta.p) h.point = none) :
    Builds (addVar g h : Builder Pasta.p σ GroupVar) fun _ => True := by
  rw [addVar_eq]
  refine (PointVar.add_builds g.point h.point).bind ?_
  rintro ⟨sum, isInfinity⟩ hopen
  refine (sumMask_builds g h (hopen hvar)).bind ?_
  rintro mask ⟨hlength, hmask⟩
  exact BoolVar.switch_builds hlength hmask

theorem add_builds (g h : GroupVar) :
    Builds (add g h : Builder Pasta.p σ GroupVar) fun _ => True := by
  have hvar : CircuitType.constantValue? (n := Pasta.p) g = none ∨
      CircuitType.constantValue? (n := Pasta.p) h = none →
      Builds (addVar g h : Builder Pasta.p σ GroupVar) fun _ => True := by
    rw [CircuitType.constantValue?_group, CircuitType.constantValue?_group,
      Option.map_eq_none_iff, Option.map_eq_none_iff]
    exact addVar_builds
  simp only [add]
  cases hg : CircuitType.constantValue? (n := Pasta.p) g with
  | none => exact hvar (.inl hg)
  | some a =>
      cases hh : CircuitType.constantValue? (n := Pasta.p) h with
      | none => exact hvar (.inr hh)
      | some b => exact .pure trivial

theorem scaleWith_builds (g : GroupVar)
    {multiple : PointVar Pasta.p → Builder Pasta.p σ (PointVar Pasta.p)}
    (hmultiple : ∀ P, Builds (multiple P) fun _ => True) :
    Builds (scaleWith g multiple) fun _ => True := by
  unfold scaleWith
  apply (isZero_builds g).bind
  intro isZero _
  apply (BoolVar.select_builds isZero generator g).bind
  intro base _
  exact (hmultiple base.point).bind fun result _ => BoolVar.select_builds isZero zero ⟨result⟩

theorem scale_builds (g : GroupVar) (x : Expr Pasta.p) :
    Builds (scale g x : Builder Pasta.p σ GroupVar) fun _ => True :=
  scaleWith_builds g fun P => PointVar.scale_builds P x

theorem scaleShifted_builds (g : GroupVar) (t : ScalarVar) :
    Builds (scaleShifted g t : Builder Pasta.p σ GroupVar) fun _ => True := by
  have hwide : ¬highBits < Binary.width PointVar.degenerateHigh := by decide
  exact scaleWith_builds g fun P =>
    PointVar.scaleShifted_builds P t le_rfl fun hshort => absurd hshort hwide

/-! ### Honest runs -/

section

variable {s : Run Pasta.p σ} {g h : GroupVar} {P Q : Coordinates Fp} {A B : Pallas.Point}

theorem carries_ofCoordinates :
    s.Carries g (Pallas.ofCoordinates P) ↔ s.Carries g.point P := by
  rw [Run.carries_group, Pallas.toCoordinates_ofCoordinates]

theorem isZero_proves (hg : s.Carries g.point P) :
    Proves s (isZero g : Builder Pasta.p σ (BoolVar Pasta.p)) fun t b =>
      t.Carries b (decide (P = 0)) := by
  obtain ⟨hx, hy⟩ := Run.carries_point.mp hg
  rw [decide_eq_zero]
  refine (Expr.isEqual_proves hx .zero).bind fun t x hst hx => ?_
  exact (Expr.isEqual_proves (hy.mono hst) .zero).bind fun u y htu hy =>
    BoolVar.and_proves (hx.mono htu) hy

theorem assertOnCurve_proves (hg : s.Carries g.point P)
    (hP : P = 0 ∨ P.y ^ 2 = P.x ^ 3 + Pallas.b) :
    Proves s (assertOnCurve g : Builder Pasta.p σ Unit) fun _ _ => True := by
  unfold assertOnCurve
  refine (isZero_proves hg).bind fun t₁ zero h₁ hzero => ?_
  obtain ⟨hx, hy⟩ := Run.carries_point.mp (hg.mono h₁)
  refine (Expr.square_proves hx).bind fun t₂ xx h₂ hxx => ?_
  refine (Expr.mul_proves hxx (hx.mono h₂)).bind fun t₃ xxx h₃ hxxx => ?_
  refine (Expr.square_proves (hy.mono (h₂.trans h₃))).bind fun t₄ yy h₄ hyy => ?_
  have hnot := Run.carries_bool.mp (BoolVar.carries_not (hzero.mono ((h₂.trans h₃).trans h₄)))
  have hdifference := (hyy.minus (hxxx.mono h₄)).minus (.const Pallas.b)
  -- the first factor vanishes at `(0, 0)`, the second one on the curve
  have hproduct : Residue.ofBool (!decide (P = 0)) * (P.y ^ 2 - P.x ^ 2 * P.x - Pallas.b) = 0 := by
    rcases hP with hzero | hcurve
    · rw [decide_eq_true hzero, Bool.not_true, Residue.ofBool_false, zero_mul]
    · rw [hcurve]
      ring
  exact .product hnot hdifference .zero hproduct

theorem sumMask_proves {isInfinity : BoolVar Pasta.p} (hg : s.Carries g.point P)
    (hh : s.Carries h.point Q) (hinfinity : s.Carries isInfinity (AdditionGate.opposite P Q)) :
    Proves s (sumMask g h isInfinity : Builder Pasta.p σ (List (BoolVar Pasta.p)))
      fun t mask => t.CarriesAll (mask.map BoolVar.expr) ((sumCases P Q).map .ofBool) := by
  unfold sumMask
  refine (isZero_proves hg).bind fun t₁ gZero h₁ hgZero => ?_
  refine (isZero_proves (hh.mono h₁)).bind fun t₂ hZero h₂ hhZero => ?_
  replace hgZero := hgZero.mono h₂
  refine (BoolVar.and_proves hgZero hhZero).bind fun t₃ bothZero h₃ hbothZero => ?_
  replace hgZero := hgZero.mono h₃
  replace hhZero := hhZero.mono h₃
  refine (BoolVar.and_proves hgZero (BoolVar.carries_not hhZero)).bind
    fun t₄ onlyG h₄ honlyG => ?_
  replace hgZero := hgZero.mono h₄
  replace hhZero := hhZero.mono h₄
  refine (BoolVar.and_proves hhZero (BoolVar.carries_not hgZero)).bind
    fun t₅ onlyH h₅ honlyH => ?_
  have hspecial :=
    BoolVar.carriesAll_cons (hbothZero.mono (h₄.trans h₅)) <|
      BoolVar.carriesAll_cons (honlyG.mono h₅) <|
      BoolVar.carriesAll_cons honlyH <|
      BoolVar.carriesAll_cons (hinfinity.mono ((((h₁.trans h₂).trans h₃).trans h₄).trans h₅))
        BoolVar.carriesAll_nil
  have hfew : 4 < Pasta.p := by decide
  refine (BoolVar.any_proves hspecial hfew).bind fun t₆ special h₆ hany => .pure ?_
  exact (Run.carriesAll_append rfl).mpr
    ⟨hspecial.mono h₆, BoolVar.carriesAll_cons (BoolVar.carries_not hany) BoolVar.carriesAll_nil⟩

theorem flaw?_honest_ofPoint (A B : Pallas.Point) :
    (AdditionGate.honest (ofPoint A) (ofPoint B)).flaw? = none := by
  apply AdditionGate.flaw?_honest
  intro _ hy
  by_cases hA : A = 0
  · rw [hA]
    rfl
  · exact absurd hy ((locates_ofPoint hA).y_ne_zero (Pallas.add_self_ne_zero hA))

theorem addVar_proves (hg : s.Carries g.point (ofPoint A)) (hh : s.Carries h.point (ofPoint B)) :
    Proves s (addVar g h : Builder Pasta.p σ GroupVar) fun t r =>
      t.Carries r.point (ofPoint (A + B)) := by
  rw [addVar_eq]
  refine (PointVar.add_proves hg hh (flaw?_honest_ofPoint A B)).bind ?_
  rintro t₁ ⟨sum, isInfinity⟩ h₁ ⟨hsum, hinfinity⟩
  refine (sumMask_proves (hg.mono h₁) (hh.mono h₁) hinfinity).bind fun t₂ mask h₂ hmask => ?_
  replace hg := hg.mono (h₁.trans h₂)
  replace hh := hh.mono (h₁.trans h₂)
  replace hsum := hsum.mono h₂
  have hscope : ∀ y ∈ [zero, h, g, zero, ⟨sum⟩], InScope (n := Pasta.p) t₂.nextVar y := by
    simp only [List.forall_mem_cons, inScope_group]
    exact ⟨⟨trivial, trivial⟩, PointVar.below_of_carries hh, PointVar.below_of_carries hg,
      ⟨trivial, trivial⟩, PointVar.below_of_carries hsum, by simp⟩
  obtain ⟨x, hselects, hvalue⟩ := exists_selects_sumCases
    (fun x : GroupVar => x.point.eval t₂.assignment) (PointVar.eval_constant 0)
    (PointVar.eval_of_carries hg) (PointVar.eval_of_carries hh) fun hA hB hne => by
      rw [PointVar.eval_of_carries hsum]
      exact ((AdditionGate.honest_sum (locates_ofPoint hA) (locates_ofPoint hB)
        (Pallas.add_self_ne_zero hA)).2 hne).eq_ofPoint
  have hx : t₂.Carries x (Pallas.ofCoordinates (ofPoint (A + B))) :=
    carries_ofCoordinates.mpr (PointVar.carries_of_eval
      ((inScope_group _ x).mp (hscope x hselects.mem)) hvalue)
  exact (BoolVar.switch_proves hmask hselects hscope hx).mono fun _ _ _ hr =>
    carries_ofCoordinates.mp hr

theorem add_proves (hg : s.Carries g.point (ofPoint A)) (hh : s.Carries h.point (ofPoint B)) :
    Proves s (add g h : Builder Pasta.p σ GroupVar) fun t r =>
      t.Carries r.point (ofPoint (A + B)) := by
  simp only [add]
  cases hcg : CircuitType.constantValue? (n := Pasta.p) g with
  | none => exact addVar_proves hg hh
  | some a =>
      cases hch : CircuitType.constantValue? (n := Pasta.p) h with
      | none => exact addVar_proves hg hh
      | some b =>
          have ha := represents_of_constantValue? hcg (PointVar.eval_of_carries hg)
          have hb := represents_of_constantValue? hch (PointVar.eval_of_carries hh)
          refine .pure ?_
          rw [← (ha.add hb).toCoordinates]
          exact PointVar.carries_constant _

theorem sub_proves (hg : s.Carries g.point (ofPoint A)) (hh : s.Carries h.point (ofPoint B)) :
    Proves s (sub g h : Builder Pasta.p σ GroupVar) fun t r =>
      t.Carries r.point (ofPoint (A - B)) := by
  rw [sub_eq_add_neg]
  exact add_proves hg (PointVar.carries_neg_ofPoint hh)

theorem scaleWith_proves (hg : s.Carries g.point (ofPoint A)) (k : Nat)
    {multiple : PointVar Pasta.p → Builder Pasta.p σ (PointVar Pasta.p)}
    (hmultiple : ∀ t P (B : Pallas.Point), s.Advances t → B ≠ 0 → t.Carries P (ofPoint B) →
      Proves t (multiple P) fun u R => u.Carries R (ofPoint (k • B))) :
    Proves s (scaleWith g multiple) fun t r => t.Carries r.point (ofPoint (k • A)) := by
  obtain ⟨G, hG, hGne⟩ := Pallas.exists_generator
  have hgenerator : ∀ t : Run Pasta.p σ, t.Carries generator (Pallas.ofCoordinates (ofPoint G)) :=
    fun t => carries_ofCoordinates.mpr (hG.toCoordinates ▸ PointVar.carries_constant _)
  have hzero : ∀ t : Run Pasta.p σ, t.Carries zero (Pallas.ofCoordinates 0) :=
    fun t => carries_ofCoordinates.mpr (PointVar.carries_constant _)
  unfold scaleWith
  refine (isZero_proves hg).bind fun t₁ isZero h₁ hisZero => ?_
  refine (BoolVar.select_proves hisZero (hgenerator t₁)
    (carries_ofCoordinates.mpr (hg.mono h₁))).bind fun t₂ base h₂ hbase => ?_
  obtain ⟨B, hB, hbase, heq⟩ : ∃ B : Pallas.Point, B ≠ 0 ∧ t₂.Carries base.point (ofPoint B) ∧
      (A ≠ 0 → B = A) := by
    by_cases hA : A = 0
    · rw [hA, ofPoint_zero, decide_eq_true rfl, if_pos rfl] at hbase
      exact ⟨G, hGne, carries_ofCoordinates.mp hbase, fun hne => absurd hA hne⟩
    · rw [decide_eq_false (mt Pallas.ofPoint_eq_zero_iff.mp hA),
        if_neg Bool.false_ne_true] at hbase
      exact ⟨A, hA, carries_ofCoordinates.mp hbase, fun _ => rfl⟩
  refine (hmultiple t₂ base.point B (h₁.trans h₂) hB hbase).bind fun t₃ R h₃ hR => ?_
  have hresult : t₃.Carries (⟨R⟩ : GroupVar) (Pallas.ofCoordinates (ofPoint (k • B))) :=
    carries_ofCoordinates.mpr hR
  refine (BoolVar.select_proves (hisZero.mono (h₂.trans h₃)) (hzero t₃) hresult).mono
    fun t₄ r h₄ hr => ?_
  by_cases hA : A = 0
  · rw [hA, ofPoint_zero, decide_eq_true rfl, if_pos rfl] at hr
    rw [hA, nsmul_zero, ofPoint_zero]
    exact carries_ofCoordinates.mp hr
  · rw [decide_eq_false (mt Pallas.ofPoint_eq_zero_iff.mp hA), if_neg Bool.false_ne_true,
      heq hA] at hr
    exact carries_ofCoordinates.mp hr

theorem scale_proves (hg : s.Carries g.point (ofPoint A)) {x : Expr Pasta.p} {a : Fp}
    (hx : s.Carries x a) :
    Proves s (scale g x : Builder Pasta.p σ GroupVar) fun t r =>
      t.Carries r.point (ofPoint (a.val • A)) :=
  scaleWith_proves hg a.val fun _ _ _ hst hB hP => PointVar.scale_proves hB hP (hx.mono hst)

theorem scaleShifted_proves (hg : s.Carries g.point (ofPoint A)) {t : ScalarVar} {u : Fq}
    (ht : s.Carries t u) :
    Proves s (scaleShifted g t : Builder Pasta.p σ GroupVar) fun t' r =>
      t'.Carries r.point (ofPoint (u.val • A)) := by
  obtain ⟨hlo, hhi⟩ := Run.carries_scalar.mp ht
  obtain ⟨hval, hshort, hne, hmultiple⟩ := PointVar.shift_spec u
  generalize ScalarVar.shift u = parts at hlo hhi hval hshort hne hmultiple
  refine scaleWith_proves hg u.val fun t' P B hst hB hP => ?_
  rw [← hmultiple B, ← hval]
  exact PointVar.scaleShifted_proves hB hP (hlo.mono hst) (hhi.mono hst) le_rfl
    (hval.symm ▸ hshort) (hval.symm ▸ hne)

theorem witness_scaleShifted_proves (hg : s.Carries g.point (ofPoint A)) (u : Fq) :
    Proves s (do
      let t : ScalarVar ← witness (pure u)
      scaleShifted g t : Builder Pasta.p σ GroupVar) fun t' r =>
        t'.Carries r.point (ofPoint (u.val • A)) := by
  have hwitness : Proves s (witness (pure u) : Builder Pasta.p σ ScalarVar) fun t' t =>
      t'.Carries t u := Proves.witness fun _ => witnessing_authored_of_ok rfl
  exact hwitness.bind fun _ _ hst ht => scaleShifted_proves (hg.mono hst) ht

end

end PallasCircuits.GroupVar
