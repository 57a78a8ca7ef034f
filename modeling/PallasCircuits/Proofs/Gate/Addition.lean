import PallasCircuits.Gate.Addition
import PallasCircuits.Proofs.Curve.Group

namespace PallasCircuits.AdditionGate

open Coordinates

variable {n : Nat} [Modulus n]

/-! A complete addition without a flaw computes the sum of two points, and honest cells are
without a flaw. -/

theorem flaw?_eq_none_iff (gate : AdditionGate (Residue n)) :
    gate.flaw? = none ↔
      flagsZero (gate.right.x - gate.left.x) gate.differenceInverse gate.sameX = true ∧
      gate.sameX * (gate.slope * (2 * gate.left.y) - 3 * gate.left.x ^ 2) +
        (1 - gate.sameX) * (gate.slope * (gate.right.x - gate.left.x) -
          (gate.right.y - gate.left.y)) = 0 ∧
      gate.sum = along gate.slope gate.left gate.right ∧
      (gate.right.y - gate.left.y) * (gate.sameX - gate.isInfinity) = 0 ∧
      (gate.right.y - gate.left.y) * gate.infinityInverse = gate.isInfinity := by
  have hslope :
      gate.sameX * (gate.slope.double * gate.left.y - gate.left.x.square.double -
          gate.left.x.square) +
        (1 - gate.sameX) * ((gate.right.x - gate.left.x) * gate.slope -
          (gate.right.y - gate.left.y)) =
      gate.sameX * (gate.slope * (2 * gate.left.y) - 3 * gate.left.x ^ 2) +
        (1 - gate.sameX) * (gate.slope * (gate.right.x - gate.left.x) -
          (gate.right.y - gate.left.y)) := by
    simp only [Residue.double_eq, Residue.square_eq]
    ring
  have hsum : gate.sum = along gate.slope gate.left gate.right ↔
      gate.slope.square = gate.left.x + gate.right.x + gate.sum.x ∧
        gate.slope * (gate.left.x - gate.sum.x) - gate.left.y = gate.sum.y := by
    rw [Coordinates.ext_iff]
    simp only [along, Residue.square_eq]
    constructor
    · rintro ⟨hx, hy⟩
      rw [hy, hx]
      exact ⟨by ring, rfl⟩
    · rintro ⟨hx, hy⟩
      rw [← hy, hx]
      exact ⟨by ring, by ring⟩
  rw [hsum, ← hslope]
  unfold flaw?
  simp only
  split_ifs <;> simp_all

def opposite (P Q : Coordinates (Residue n)) : Bool :=
  P.x = Q.x && P.y ≠ Q.y

omit [Modulus n] in
theorem opposite_of_x_ne {P Q : Coordinates (Residue n)} (h : P.x ≠ Q.x) :
    opposite P Q = false := by
  simp [opposite, h]

theorem decide_isInfinity_honest (P Q : Coordinates (Residue n)) :
    decide ((honest P Q).isInfinity = 1) = opposite P Q := by
  rw [Bool.eq_iff_iff, decide_eq_true_iff]
  exact Residue.ofBool_eq_one_iff _

variable [PastaPrime n]

theorem flagsZero_iff (z inverse flag : Residue n) :
    flagsZero z inverse flag = true ↔
      z = 0 ∧ flag = 1 ∨ z ≠ 0 ∧ flag = 0 ∧ inverse = z⁻¹ := by
  simp only [flagsZero, decide_eq_true_iff]
  constructor
  · rintro ⟨hinverse, hflag⟩
    by_cases hz : z = 0
    · refine .inl ⟨hz, ?_⟩
      rw [hz, mul_zero] at hinverse
      exact (sub_eq_zero.mp hinverse.symm).symm
    · have hflag := (mul_eq_zero.mp hflag).resolve_right hz
      rw [hflag, sub_zero] at hinverse
      exact .inr ⟨hz, hflag, eq_inv_of_mul_eq_one_left hinverse⟩
  · rintro (⟨rfl, rfl⟩ | ⟨hz, rfl, rfl⟩)
    · simp
    · simp [inv_mul_cancel₀ hz]

variable {gate : AdditionGate (Residue n)}

theorem sameX_of_flaw? (h : gate.flaw? = none) :
    gate.sameX = .ofBool (gate.left.x = gate.right.x) := by
  have hflag := ((flaw?_eq_none_iff gate).mp h).1
  rcases (flagsZero_iff ..).mp hflag with ⟨hdx, hone⟩ | ⟨hdx, hzero, -⟩
  · have hx : gate.left.x = gate.right.x := (sub_eq_zero.mp hdx).symm
    simp [hone, hx]
  · have hx : gate.left.x ≠ gate.right.x := fun heq => hdx (by rw [heq, sub_self])
    simp [hzero, hx]

/-- No slope follows the tangent rule where the tangent is vertical, except at `(0, 0)`. -/
theorem x_eq_zero_of_flaw? (h : gate.flaw? = none) (hx : gate.left.x = gate.right.x)
    (hy : gate.left.y = 0) : gate.left.x = 0 := by
  have hslope := ((flaw?_eq_none_iff gate).mp h).2.1
  rw [sameX_of_flaw? h, decide_eq_true hx, hy] at hslope
  have htangent : 3 * gate.left.x ^ 2 = 0 := by
    simpa using hslope
  have hsquare := (mul_eq_zero.mp htangent).resolve_left Residue.three_ne_zero
  exact (pow_eq_zero_iff two_ne_zero).mp hsquare

theorem isInfinity_of_flaw? (h : gate.flaw? = none) :
    gate.isInfinity = .ofBool (opposite gate.left gate.right) := by
  obtain ⟨hflag, -, -, hinfinity, hinverse⟩ := (flaw?_eq_none_iff gate).mp h
  unfold opposite
  by_cases hy : gate.left.y = gate.right.y
  · rw [← hinverse, hy, sub_self, zero_mul]
    simp
  · have hdy : gate.right.y - gate.left.y ≠ 0 := sub_ne_zero.mpr (Ne.symm hy)
    have hsame : gate.isInfinity = gate.sameX :=
      (sub_eq_zero.mp ((mul_eq_zero.mp hinfinity).resolve_left hdy)).symm
    rcases (flagsZero_iff ..).mp hflag with ⟨hdx, hone⟩ | ⟨hdx, hzero, -⟩
    · have hx : gate.left.x = gate.right.x := (sub_eq_zero.mp hdx).symm
      simp [hsame, hone, hx, hy]
    · have hx : gate.left.x ≠ gate.right.x := fun heq => hdx (by rw [heq, sub_self])
      simp [hsame, hzero, hx]

variable {P Q : Coordinates (Residue n)} {b : Residue n} {A B : (curve b).Point}

theorem opposite_iff (hA : P.Locates A) (hB : Q.Locates B) (htorsion : A + A ≠ 0) :
    opposite P Q = true ↔ A + B = 0 := by
  rw [hA.add_eq_zero_iff hB, opposite, Bool.and_eq_true, decide_eq_true_iff, decide_eq_true_iff]
  refine and_congr_right fun hx => ⟨(hA.y_eq_or_neg hB hx).resolve_left, ?_⟩
  intro hneg heq
  rw [← heq] at hneg
  exact htorsion ((hA.add_eq_zero_iff hA).mpr ⟨rfl, hneg⟩)

theorem locates_of_flaw? (h : gate.flaw? = none) (hA : gate.left.Locates A)
    (hB : gate.right.Locates B) (htorsion : A + A ≠ 0) :
    (A + B = 0 → gate.isInfinity = 1) ∧
      (A + B ≠ 0 → gate.isInfinity = 0 ∧ gate.sum.Locates (A + B)) := by
  have hopposite := opposite_iff hA hB htorsion
  rw [isInfinity_of_flaw? h, Residue.ofBool_eq_one_iff, Residue.ofBool_eq_zero_iff, hopposite,
    ← Bool.not_eq_true, hopposite]
  refine ⟨id, fun hne => ⟨hne, ?_⟩⟩
  obtain ⟨hflag, hslope, hsum, -, -⟩ := (flaw?_eq_none_iff gate).mp h
  rw [hsum]
  refine hA.along hB ?_ hne
  rcases (flagsZero_iff ..).mp hflag with ⟨hdx, hsame⟩ | ⟨hdx, hsame, -⟩
  · have hx : gate.left.x = gate.right.x := (sub_eq_zero.mp hdx).symm
    rw [hsame] at hslope
    exact ⟨fun hne => absurd hx hne, fun _ => by linear_combination hslope⟩
  · have hx : gate.left.x ≠ gate.right.x := fun heq => hdx (by rw [heq, sub_self])
    rw [hsame] at hslope
    exact ⟨fun _ => by linear_combination hslope, fun heq => absurd heq hx⟩

theorem flaw?_honest (P Q : Coordinates (Residue n)) (hy : P.x = Q.x → P.y = 0 → P.x = 0) :
    (honest P Q).flaw? = none := by
  rw [flaw?_eq_none_iff]
  by_cases hx : P.x = Q.x
  · have htangent : (honest P Q).slope * (2 * P.y) = 3 * P.x ^ 2 := by
      simp only [honest, hx, decide_true, if_true, Residue.invOrZero_eq_inv,
        Residue.double_eq, Residue.square_eq]
      by_cases hzero : P.y = 0
      · rw [← hx, hy hx hzero, hzero]
        ring
      · rw [inv_mul_cancel_right₀ (mul_ne_zero Residue.two_ne_zero hzero)]
        ring
    have hslope : (honest P Q).slope * (2 * P.y) - 3 * P.x ^ 2 = 0 := sub_eq_zero.mpr htangent
    by_cases hsame : P.y = Q.y
    · simpa [honest, flagsZero, hx, hsame] using hslope
    · have hdy : Q.y - P.y ≠ 0 := sub_ne_zero.mpr (Ne.symm hsame)
      simpa [honest, flagsZero, hx, hsame, hdy] using hslope
  · have hdx : Q.x - P.x ≠ 0 := sub_ne_zero.mpr (Ne.symm hx)
    simp [honest, flagsZero, hx, hdx]

theorem honest_sum (hA : P.Locates A) (hB : Q.Locates B) (htorsion : A + A ≠ 0) :
    (opposite P Q = true ↔ A + B = 0) ∧ (A + B ≠ 0 → (honest P Q).sum.Locates (A + B)) := by
  have hflaw := flaw?_honest P Q fun _ hzero => absurd hzero (hA.y_ne_zero htorsion)
  exact ⟨opposite_iff hA hB htorsion,
    fun hne => ((locates_of_flaw? hflaw hA hB htorsion).2 hne).2⟩

end PallasCircuits.AdditionGate
