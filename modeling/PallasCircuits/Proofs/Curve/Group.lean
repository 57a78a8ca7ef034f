import Mathlib.AlgebraicGeometry.EllipticCurve.Affine.Point
import PallasCircuits.Curve.Coordinates
import PallasCircuits.Proofs.Field.Prime

namespace PallasCircuits.Coordinates

open WeierstrassCurve.Affine

attribute [ext] Coordinates

variable {n : Nat} [Modulus n]

/-! The chord and tangent rules compute the group law of the curves `y² = x³ + b`. -/

def curve (b : Residue n) : WeierstrassCurve.Affine (Residue n) := ⟨0, 0, 0, 0, b⟩

variable {b : Residue n}

theorem equation_iff_eq (x y : Residue n) : (curve b).Equation x y ↔ y ^ 2 = x ^ 3 + b := by
  simp [equation_iff, curve]

@[simp] theorem negY_curve (x y : Residue n) : (curve b).negY x y = -y := by
  simp [curve]

def Locates (P : Coordinates (Residue n)) (A : (curve b).Point) : Prop :=
  ∃ h : (curve b).Nonsingular P.x P.y, A = .some P.x P.y h

/-- The coordinates of a point, with `(0, 0)` for infinity. -/
def ofPoint : (curve b).Point → Coordinates (Residue n)
  | .zero => 0
  | .some x y _ => ⟨x, y⟩

@[simp] theorem ofPoint_zero : ofPoint (0 : (curve b).Point) = 0 := rfl

variable {P Q R : Coordinates (Residue n)} {A B : (curve b).Point}

theorem Locates.eq_ofPoint (hA : P.Locates A) : P = ofPoint A := by
  obtain ⟨_, rfl⟩ := hA
  rfl

theorem Locates.ne_zero (hA : P.Locates A) : A ≠ 0 := by
  obtain ⟨hP, rfl⟩ := hA
  exact Point.some_ne_zero hP

theorem Locates.equation (hA : P.Locates A) : P.y ^ 2 = P.x ^ 3 + b :=
  (equation_iff_eq P.x P.y).mp hA.1.left

theorem locates_ofPoint (hA : A ≠ 0) : (ofPoint A).Locates A := by
  cases A with
  | zero => exact absurd rfl hA
  | some x y h => exact ⟨h, rfl⟩

theorem Locates.unique (hA : P.Locates A) (hB : P.Locates B) : A = B := by
  obtain ⟨_, rfl⟩ := hA
  obtain ⟨_, rfl⟩ := hB
  rfl

theorem Locates.neg (hA : P.Locates A) : (-P).Locates (-A) := by
  obtain ⟨hP, rfl⟩ := hA
  have hy : (curve b).negY P.x P.y = (-P).y := negY_curve P.x P.y
  have hneg : (curve b).Nonsingular (-P).x (-P).y := by
    rw [← hy]
    exact (nonsingular_neg P.x P.y).mpr hP
  refine ⟨hneg, ?_⟩
  rw [Point.neg_some]
  congr 1

theorem Locates.digit (hA : P.Locates A) (bit : Bool) :
    (if bit then P else -P).Locates (if bit then A else -A) := by
  cases bit with
  | true => exact hA
  | false => exact hA.neg

theorem ofPoint_neg (A : (curve b).Point) : ofPoint (-A) = -ofPoint A := by
  cases A with
  | zero => exact Coordinates.ext rfl neg_zero.symm
  | some x y h => exact (locates_ofPoint (Point.some_ne_zero h)).neg.eq_ofPoint.symm

variable [PastaPrime n]

theorem Locates.add_eq_zero_iff (hA : P.Locates A) (hB : Q.Locates B) :
    A + B = 0 ↔ P.x = Q.x ∧ P.y = -Q.y := by
  obtain ⟨hP, rfl⟩ := hA
  obtain ⟨hQ, rfl⟩ := hB
  rw [← negY_curve (b := b) Q.x Q.y]
  constructor
  · intro hzero
    by_contra hne
    rw [Point.add_some hne] at hzero
    exact Point.some_ne_zero _ hzero
  · rintro ⟨hx, hy⟩
    exact Point.add_of_Y_eq hx hy

theorem Locates.y_eq_or_neg (hA : P.Locates A) (hB : Q.Locates B) (hx : P.x = Q.x) :
    P.y = Q.y ∨ P.y = -Q.y := by
  have hsq : P.y ^ 2 = Q.y ^ 2 := by
    rw [hA.equation, hB.equation, hx]
  exact sq_eq_sq_iff_eq_or_eq_neg.mp hsq

theorem Locates.y_ne_zero (hA : P.Locates A) (htorsion : A + A ≠ 0) : P.y ≠ 0 := by
  intro hy
  refine htorsion ((hA.add_eq_zero_iff hA).mpr ⟨rfl, ?_⟩)
  rw [hy, neg_zero]

/-- `slope` is the slope of the chord through `P` and `Q`, or of the tangent if they share
their x-coordinate. -/
structure IsSlope (slope : Residue n) (P Q : Coordinates (Residue n)) : Prop where
  chord : P.x ≠ Q.x → slope * (Q.x - P.x) = Q.y - P.y
  tangent : P.x = Q.x → slope * (2 * P.y) = 3 * P.x ^ 2

theorem IsSlope.eq_slope {slope : Residue n} (h : IsSlope slope P Q)
    (hy : P.x = Q.x → P.y = Q.y) (hne : ¬(P.x = Q.x ∧ P.y = -Q.y)) :
    (curve b).slope P.x Q.x P.y Q.y = slope := by
  by_cases hx : P.x = Q.x
  · have hyne : P.y ≠ -Q.y := fun heq => hne ⟨hx, heq⟩
    have hdouble : P.y + P.y ≠ 0 := by
      rw [ne_eq, ← eq_neg_iff_add_eq_zero]
      rwa [← hy hx] at hyne
    have htangent := h.tangent hx
    rw [two_mul] at htangent
    have hnegY : P.y ≠ (curve b).negY Q.x Q.y := by
      rwa [negY_curve]
    rw [slope_of_Y_ne hx hnegY, negY_curve, sub_neg_eq_add, div_eq_iff hdouble, htangent]
    simp [curve]
  · rw [slope_of_X_ne hx, div_eq_iff (sub_ne_zero.mpr hx)]
    linear_combination h.chord hx

theorem Locates.along {slope : Residue n} (hA : P.Locates A) (hB : Q.Locates B)
    (hslope : IsSlope slope P Q) (hsum : A + B ≠ 0) :
    (Coordinates.along slope P Q).Locates (A + B) := by
  have hne : ¬(P.x = Q.x ∧ P.y = -Q.y) := fun h => hsum ((hA.add_eq_zero_iff hB).mpr h)
  have hy : P.x = Q.x → P.y = Q.y := by
    intro hx
    rcases hA.y_eq_or_neg hB hx with heq | hneg
    · exact heq
    · exact absurd ⟨hx, hneg⟩ hne
  have heq := hslope.eq_slope (b := b) hy hne
  obtain ⟨hP, rfl⟩ := hA
  obtain ⟨hQ, rfl⟩ := hB
  have hneY : ¬(P.x = Q.x ∧ P.y = (curve b).negY Q.x Q.y) := by
    rwa [negY_curve]
  have hxsum : (Coordinates.along slope P Q).x =
      (curve b).addX P.x Q.x ((curve b).slope P.x Q.x P.y Q.y) := by
    rw [heq]
    simp [Coordinates.along, curve]
  have hysum : (Coordinates.along slope P Q).y =
      (curve b).addY P.x Q.x P.y ((curve b).slope P.x Q.x P.y Q.y) := by
    rw [addY, negY_curve, negAddY, ← hxsum, heq]
    simp only [Coordinates.along]
    ring
  have hnonsingular := nonsingular_add hP hQ hneY
  have hsum : Point.some _ _ hP + Point.some _ _ hQ = Point.some _ _ hnonsingular :=
    Point.add_some hneY
  refine ⟨?_, ?_⟩
  · rwa [hxsum, hysum]
  · rw [hsum]
    congr 1
    · exact hxsum.symm
    · exact hysum.symm

theorem Locates.addIncomplete? (hA : P.Locates A) (hB : Q.Locates B)
    (h : P.addIncomplete? Q = some R) : R.Locates (A + B) := by
  simp only [Coordinates.addIncomplete?, chordSlope?, Option.map_map, Option.map_eq_some_iff,
    Function.comp_apply] at h
  obtain ⟨inverse, hinverse, rfl⟩ := h
  obtain ⟨hdx, rfl⟩ := Residue.inv?_eq_some hinverse
  have hx : P.x ≠ Q.x := fun heq => hdx (by rw [heq, sub_self])
  refine hA.along hB ⟨fun _ => ?_, fun heq => absurd heq hx⟩ ?_
  · rw [mul_assoc, inv_mul_cancel₀ hdx, mul_one]
  · intro hzero
    exact hx ((hA.add_eq_zero_iff hB).mp hzero).1

theorem Locates.double? (hA : P.Locates A) (h : P.double? = some R) : R.Locates (A + A) := by
  simp only [Coordinates.double?, tangentSlope?, Option.map_map, Option.map_eq_some_iff,
    Function.comp_apply] at h
  obtain ⟨inverse, hinverse, rfl⟩ := h
  obtain ⟨hdy, rfl⟩ := Residue.inv?_eq_some hinverse
  refine hA.along hA ⟨fun hx => absurd rfl hx, fun _ => ?_⟩ ?_
  · rw [← Residue.double_eq, mul_assoc, inv_mul_cancel₀ hdy]
    simp only [Residue.double_eq, Residue.square_eq]
    ring
  · intro hzero
    have hy := ((hA.add_eq_zero_iff hA).mp hzero).2
    apply hdy
    rw [Residue.double_eq, two_mul]
    exact eq_neg_iff_add_eq_zero.mp hy

theorem Locates.doubleAndAdd? (hA : P.Locates A) {bits : List Bool}
    (h : P.doubleAndAdd? bits = some R) :
    R.Locates ((2 * Binary.ofDigits bits + 1 + 2 ^ bits.length) • A) := by
  induction bits generalizing R with
  | nil =>
      have hdouble := hA.double? h
      rwa [← two_nsmul] at hdouble
  | cons bit bits ih =>
      simp only [Coordinates.doubleAndAdd?, Option.bind_eq_bind, Option.bind_eq_some_iff] at h
      obtain ⟨acc, hacc, next, hnext, hR⟩ := h
      have hAcc := ih hacc
      have hsum := (hAcc.addIncomplete? (hA.digit bit) hnext).addIncomplete? hAcc hR
      convert hsum using 1
      rw [Binary.ofDigits_cons, List.length_cons, pow_succ]
      cases bit with
      | true =>
          simp only [Bool.toNat_true, if_true]
          module
      | false =>
          simp only [Bool.toNat_false, Bool.false_eq_true, if_false]
          module

end PallasCircuits.Coordinates
