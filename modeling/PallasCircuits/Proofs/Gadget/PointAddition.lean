import PallasCircuits.Gadget.PointAddition
import PallasCircuits.Proofs.Gadget.Selection
import PallasCircuits.Proofs.Gate.Addition

namespace PallasCircuits.PointVar

open Builder Coordinates

variable {n : Nat} [Modulus n] {σ : Type} {ρ : Nat → Residue n}

/-! Points inside a circuit are added and multiplied like the points they evaluate to. -/

@[simp] theorem eval_constant (P : Coordinates (Residue n)) : (constant P).eval ρ = P := rfl

@[simp] theorem eval_neg (P : PointVar n) : (neg P).eval ρ = -P.eval ρ :=
  Coordinates.ext rfl (Expr.eval_neg ρ P.y)

theorem eval_of_constantValue? {P : PointVar n} {a : Coordinates (Residue n)}
    (h : CircuitType.constantValue? (n := n) P = some a) : P.eval ρ = a := by
  obtain ⟨hx, hy⟩ := CircuitType.constantValue?_point.mp h
  exact Coordinates.ext (Expr.eval_of_toConstant? ρ hx) (Expr.eval_of_toConstant? ρ hy)

theorem constantValue?_constant (A : Coordinates (Residue n)) :
    CircuitType.constantValue? (n := n) (constant A) = some A :=
  CircuitType.constantValue?_point.mpr ⟨Expr.toConstant?_const A.x, Expr.toConstant?_const A.y⟩

theorem wire_ensures (P : PointVar n) :
    Ensures ρ (wire P : Builder n σ (PointVar n)) fun Q => Q.eval ρ = P.eval ρ := by
  refine .bind (Expr.wire_ensures P.x) fun x => .bind (Expr.wire_ensures P.y) fun y => ?_
  refine .pure ?_
  intro hy hx
  exact Coordinates.ext hx hy

/-- What unpacking a scalar has to say about the multiple of a point on the curve and about
the digits. -/
def Unpacks (ρ : Nat → Residue n) (b : Residue n) [PastaPrime n] (base : PointVar n)
    (scalar : Expr n) (count : Nat) (r : PointVar n × List (Expr n)) : Prop :=
  ∃ digits : List Bool, digits.length = count ∧
    r.2.map (Expr.eval ρ) = digits.map Residue.ofBool ∧
    scalar.eval ρ = Binary.ofDigits digits ∧
    ∀ A : (curve b).Point, (base.eval ρ).Locates A →
      (r.1.eval ρ).Locates ((2 * Binary.ofDigits digits + 1 + 2 ^ count) • A)

theorem scaleUnpack_ensures [PastaPrime n] {b : Residue n} (base : PointVar n) (scalar : Expr n)
    (count : Nat) :
    Ensures ρ (scaleUnpack base scalar count : Builder n σ (PointVar n × List (Expr n)))
      (Unpacks ρ b base scalar count) := by
  refine .bind (wire_ensures base) fun base' => .bind (Expr.wire_ensures scalar) fun scalar' => ?_
  apply Ensures.bind (.declare (quiet_reading _))
  intro cells
  refine .bind (P := fun gate => ScalingGate.ofChosen? base' scalar' cells = some gate)
    (.orAbort fun _ h => h) fun gate => ?_
  refine .bind (.assert _) fun _ => .pure ?_
  intro hholds hgate hlength hscalar hbase
  match cells, hgate, hlength with
  | x :: y :: bits, hgate, hlength =>
      cases hgate
      obtain ⟨digits, hbits, hvalue, hresult⟩ := (Constraint.holds_scaling ρ _).mp hholds
      have hcount : digits.length = count := by
        have hsame := congrArg List.length hbits
        simp only [List.length_map] at hsame
        simp only [List.length_cons] at hlength
        omega
      refine ⟨digits, hcount, hbits, hscalar.symm.trans hvalue, fun A hA => ?_⟩
      rw [← hbase] at hA
      rw [← hcount]
      exact hA.doubleAndAdd? hresult

variable [PastaPrime n] {b : Residue n}

/-- What an addition has to say about its result, for operands on the curve. -/
def IsSum (ρ : Nat → Residue n) (b : Residue n) (P Q : PointVar n)
    (r : PointVar n × BoolVar n) : Prop :=
  ∀ A B : (curve b).Point, (P.eval ρ).Locates A → (Q.eval ρ).Locates B → A + A ≠ 0 →
    (A + B = 0 → r.2.Means ρ true) ∧
    (A + B ≠ 0 → r.2.Means ρ false ∧ (r.1.eval ρ).Locates (A + B))

theorem IsSum.eq_ofPoint {P Q S : PointVar n} {r : PointVar n × BoolVar n}
    {A B : (curve b).Point} (hsum : IsSum ρ b P Q r)
    (hS : ∀ v, r.2.Means ρ v → S.eval ρ = if v then eval ρ zero else r.1.eval ρ)
    (hA : (P.eval ρ).Locates A) (hB : (Q.eval ρ).Locates B) (htorsion : A + A ≠ 0) :
    S.eval ρ = ofPoint (A + B) := by
  obtain ⟨hzero, hfinite⟩ := hsum A B hA hB htorsion
  by_cases h : A + B = 0
  · rw [hS true (hzero h), if_pos rfl, h]
    rfl
  · obtain ⟨hinfinity, hlocates⟩ := hfinite h
    rw [hS false hinfinity, if_neg Bool.false_ne_true]
    exact hlocates.eq_ofPoint

def Adds (ρ : Nat → Residue n) (P Q : PointVar n) (r : PointVar n × BoolVar n) : Prop :=
  ∃ gate : AdditionGate (Residue n), gate.flaw? = none ∧ gate.left = P.eval ρ ∧
    gate.right = Q.eval ρ ∧ gate.sum = r.1.eval ρ ∧ gate.isInfinity = r.2.expr.eval ρ

omit [PastaPrime n] in
theorem addVar_ensures (P Q : PointVar n) :
    Ensures ρ (addVar P Q : Builder n σ (PointVar n × BoolVar n)) (Adds ρ P Q) := by
  refine .skip ((Ensures.declare (quiet_reading _)).mono fun _ _ => trivial) fun cells => ?_
  refine .skip (.orAbort fun _ _ => trivial) fun gate => ?_
  apply (Expr.assertBool_ensures _).bind
  intro isInfinity
  refine .bind (wire_ensures P) fun P' => .bind (wire_ensures Q) fun Q' => ?_
  refine .bind (.assert _) fun _ => .pure ?_
  intro hholds hQ hP hinfinity
  rw [Constraint.holds_addition] at hholds
  exact ⟨_, hholds, hP, hQ, rfl, congrArg _ hinfinity.1.symm⟩

theorem Adds.means_opposite {P Q : PointVar n} {r : PointVar n × BoolVar n} (h : Adds ρ P Q r) :
    r.2.Means ρ (AdditionGate.opposite (P.eval ρ) (Q.eval ρ)) := by
  obtain ⟨gate, hflaw, hleft, hright, -, hinfinity⟩ := h
  rw [← hleft, ← hright, BoolVar.Means, ← hinfinity]
  exact AdditionGate.isInfinity_of_flaw? hflaw

theorem Adds.isSum {P Q : PointVar n} {r : PointVar n × BoolVar n} (h : Adds ρ P Q r) :
    IsSum ρ b P Q r := by
  obtain ⟨gate, hflaw, hleft, hright, hsum, hinfinity⟩ := h
  intro A B hA hB htorsion
  rw [← hleft] at hA
  rw [← hright] at hB
  unfold BoolVar.Means
  rw [← hinfinity, ← hsum]
  exact AdditionGate.locates_of_flaw? hflaw hA hB htorsion

theorem add_ensures (P Q : PointVar n) :
    Ensures ρ (add P Q : Builder n σ (PointVar n × BoolVar n)) (IsSum ρ b P Q) := by
  have hvar : Ensures ρ (addVar P Q : Builder n σ (PointVar n × BoolVar n)) (IsSum ρ b P Q) :=
    (addVar_ensures P Q).mono fun _ h => h.isSum
  simp only [add]
  cases hP : CircuitType.constantValue? (n := n) P with
  | none => exact hvar
  | some a =>
      cases hQ : CircuitType.constantValue? (n := n) Q with
      | none => exact hvar
      | some c =>
          refine .pure ?_
          intro A B hA hB htorsion
          rw [eval_of_constantValue? hP] at hA
          rw [eval_of_constantValue? hQ] at hB
          obtain ⟨hopposite, hfinite⟩ := AdditionGate.honest_sum hA hB htorsion
          rw [AdditionGate.decide_isInfinity_honest]
          refine ⟨fun h => ?_, fun h => ⟨?_, hfinite h⟩⟩
          · rw [hopposite.mpr h]
            exact BoolVar.means_constant true
          · rw [Bool.eq_false_iff.mpr (mt hopposite.mp h)]
            exact BoolVar.means_constant false

theorem add_flag_ensures (P Q : PointVar n) :
    Ensures ρ (add P Q : Builder n σ (PointVar n × BoolVar n)) fun r =>
      r.2.Means ρ (AdditionGate.opposite (P.eval ρ) (Q.eval ρ)) := by
  have hvar : Ensures ρ (addVar P Q : Builder n σ (PointVar n × BoolVar n)) fun r =>
      r.2.Means ρ (AdditionGate.opposite (P.eval ρ) (Q.eval ρ)) :=
    (addVar_ensures P Q).mono fun _ h => h.means_opposite
  simp only [add]
  cases hP : CircuitType.constantValue? (n := n) P with
  | none => exact hvar
  | some a =>
      cases hQ : CircuitType.constantValue? (n := n) Q with
      | none => exact hvar
      | some c =>
          refine .pure ?_
          rw [eval_of_constantValue? hP, eval_of_constantValue? hQ,
            AdditionGate.decide_isInfinity_honest]
          exact BoolVar.means_constant _

theorem addFinite_ensures (P Q : PointVar n) :
    Ensures ρ (addFinite P Q : Builder n σ (PointVar n)) fun R =>
      ∀ A B : (curve b).Point, (P.eval ρ).Locates A → (Q.eval ρ).Locates B → A + A ≠ 0 →
        A + B ≠ 0 ∧ (R.eval ρ).Locates (A + B) := by
  refine .bind (add_ensures (b := b) P Q) ?_
  rintro ⟨R, isInfinity⟩
  refine .bind (BoolVar.assertFalse_ensures isInfinity) fun _ => .pure ?_
  intro hfalse hsum A B hA hB htorsion
  obtain ⟨hzero, hfinite⟩ := hsum A B hA hB htorsion
  have hne : A + B ≠ 0 := by
    intro h
    exact Bool.false_ne_true (hfalse.unique (hzero h))
  exact ⟨hne, (hfinite hne).2⟩

end PallasCircuits.PointVar
