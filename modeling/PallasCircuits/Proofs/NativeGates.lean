import PallasCircuits.Proofs.Constraint
import PallasCircuits.Proofs.Curve.DoubleAndAdd
import PallasCircuits.Proofs.Gate.Addition

namespace PallasCircuits

/-! What the two native gates accept: the digits that a double-and-add can process, with the
multiple they give, and the sums of points. -/

namespace Constraint

open Coordinates Binary DoubleAndAdd

theorem holds_scaling_iff {A : Pallas.Point} (hA : A ≠ 0) (ρ : Nat → Fp)
    {gate : ScalingGate (Expr Pasta.p)} (hbase : gate.base.eval ρ = ofPoint A) :
    (scaling gate).Holds ρ ↔
      (∀ bit ∈ gate.bits, bit.eval ρ = 0 ∨ bit.eval ρ = 1) ∧
      ofDigits (ScalingGate.digits (gate.bits.map (·.eval ρ))) ≡
        (gate.scalar.eval ρ).val [MOD Pasta.p] ∧
      ¬Degenerate (ScalingGate.digits (gate.bits.map (·.eval ρ))) ∧
      gate.result.eval ρ =
        ofPoint (multiplier (ScalingGate.digits (gate.bits.map (·.eval ρ))) • A) := by
  have hbits : gate.bits.map (·.eval ρ) =
        (ScalingGate.digits (gate.bits.map (·.eval ρ))).map Residue.ofBool ↔
      ∀ bit ∈ gate.bits, bit.eval ρ = 0 ∨ bit.eval ρ = 1 := by
    rw [ScalingGate.eq_map_ofBool_iff]
    exact List.forall_mem_map
  have hscalar : ∀ digits, gate.scalar.eval ρ = ofDigits digits ↔
      ofDigits digits ≡ (gate.scalar.eval ρ).val [MOD Pasta.p] := by
    intro digits
    rw [Nat.ModEq, ← Residue.natCast_eq_natCast_iff, Residue.natCast_val, eq_comm]
  rw [holds_scaling, ← hbits, ← hscalar, ← doubleAndAdd?_eq_some_iff hA, hbase]
  constructor
  · rintro ⟨digits, hdigits, hrest⟩
    have hsame : ScalingGate.digits (gate.bits.map (·.eval ρ)) = digits := by
      rw [hdigits, ScalingGate.digits_map_ofBool]
    rw [hsame]
    exact ⟨hdigits, hrest⟩
  · intro h
    exact ⟨_, h⟩

end Constraint

namespace DoubleAndAdd

open Coordinates Binary

/-- The double-and-add gives a multiple of its base, unless its digits are degenerate, and the
gate accepts just this. Its scalar is known modulo `p`, so few digits are those of its value. -/
theorem multiple_or_degenerate {A : Pallas.Point} (hA : A ≠ 0) :
    (∀ bits : List Bool,
      ((ofPoint A).doubleAndAdd? bits = none ↔ Degenerate bits) ∧
      (¬Degenerate bits →
        (2 * ofDigits bits + 1 + 2 ^ bits.length) • A ≠ 0 ∧
        (ofPoint A).doubleAndAdd? bits =
          some (ofPoint ((2 * ofDigits bits + 1 + 2 ^ bits.length) • A)))) ∧
    ∀ (ρ : Nat → Fp) (gate : ScalingGate (Expr Pasta.p)), gate.base.eval ρ = ofPoint A →
      let digits := ScalingGate.digits (gate.bits.map (·.eval ρ))
      ((Constraint.scaling gate).Holds ρ ↔
        (∀ bit ∈ gate.bits, bit.eval ρ = 0 ∨ bit.eval ρ = 1) ∧
        ofDigits digits ≡ (gate.scalar.eval ρ).val [MOD Pasta.p] ∧
        ¬Degenerate digits ∧
        gate.result.eval ρ = ofPoint ((2 * ofDigits digits + 1 + 2 ^ gate.bits.length) • A)) ∧
      ((Constraint.scaling gate).Holds ρ → gate.bits.length ≤ 254 →
        ofDigits digits = (gate.scalar.eval ρ).val) := by
  refine ⟨fun bits => ⟨doubleAndAdd?_eq_none_iff hA bits, doubleAndAdd?_of_not_degenerate hA⟩, ?_⟩
  intro ρ gate hbase digits
  have hlength : digits.length = gate.bits.length := by
    rw [ScalingGate.length_digits, List.length_map]
  have hiff := Constraint.holds_scaling_iff hA ρ hbase
  rw [multiplier, hlength] at hiff
  refine ⟨hiff, fun hholds hshort => ?_⟩
  have hlt : ofDigits digits < 2 ^ 254 :=
    (ofDigits_lt digits).trans_le (Nat.pow_le_pow_right (by decide) (hlength.le.trans hshort))
  have hscalar := (Residue.natCast_eq_natCast_iff _ _).mpr (hiff.mp hholds).2.1
  rw [Residue.natCast_val] at hscalar
  rw [← hscalar, Residue.val_natCast_of_lt_two_pow hlt]

theorem multiple_or_degenerate_generator :
    ∃ G : Pallas.Point, Pallas.generator.Represents G ∧
      (ofPoint G).doubleAndAdd? [true, false, true] = some (ofPoint (19 • G)) ∧
      (ofPoint G).doubleAndAdd? (digits 255 PointVar.degenerateHigh) = none ∧
      (Constraint.scaling {
        base := ⟨.const (ofPoint G).x, .const (ofPoint G).y⟩
        scalar := .const (5 : Nat)
        bits := [1, 0, 1]
        result := ⟨.const (ofPoint (19 • G)).x, .const (ofPoint (19 • G)).y⟩ }).Holds 0 := by
  obtain ⟨G, hG, hne⟩ := Pallas.exists_generator
  obtain ⟨hbits, hgate⟩ := multiple_or_degenerate hne
  have hdefined : ¬Degenerate [true, false, true] := by
    rw [← generic_iff_not_degenerate]
    exact Generic.of_lt (by decide)
  have hdegenerate : Degenerate (digits 255 PointVar.degenerateHigh) := by
    rw [← not_not (a := Degenerate _), ← generic_iff_not_degenerate,
      generic_digits_iff (by decide)]
    exact fun h => h.1 rfl
  refine ⟨G, hG, ((hbits _).2 hdefined).2, (hbits _).1.mpr hdegenerate, ?_⟩
  refine (hgate 0 _ rfl).1.mpr ⟨?_, by rfl, hdefined, rfl⟩
  simp only [List.forall_mem_cons]
  exact ⟨.inr rfl, .inl rfl, .inr rfl, by simp⟩

end DoubleAndAdd

namespace AdditionGate

open Coordinates

/-- A complete addition accepts honest cells wherever the tangent rule can hold, and what it
accepts for two points of the curve is their sum. -/
theorem adds_points :
    (∀ P Q : Coordinates Fp,
      (honest P Q).flaw? = none ↔ ¬(P.x = Q.x ∧ P.x ≠ 0 ∧ P.y = 0)) ∧
    ∀ gate : AdditionGate Fp,
      gate.left.y ^ 2 = gate.left.x ^ 3 + Pallas.b →
      gate.right.y ^ 2 = gate.right.x ^ 3 + Pallas.b →
      gate.flaw? = none →
      gate.sameX = .ofBool (gate.left.x = gate.right.x) ∧
      gate.isInfinity = .ofBool (gate.right = -gate.left) ∧
      (gate.isInfinity = 0 →
        gate.sum.y ^ 2 = gate.sum.x ^ 3 + Pallas.b ∧
        Pallas.affine gate.left + Pallas.affine gate.right = Pallas.affine gate.sum ∧
        ∃ A B : Pallas.Point,
          gate.left.Locates A ∧ gate.right.Locates B ∧ gate.sum.Locates (A + B)) := by
  refine ⟨fun P Q => ⟨?_, ?_⟩, ?_⟩
  · rintro h ⟨hx, hne, hy⟩
    exact hne (x_eq_zero_of_flaw? h hx hy)
  · intro h
    exact flaw?_honest P Q fun hx hy => by_contra fun hne => h ⟨hx, hne, hy⟩
  · intro gate hleft hright h
    obtain ⟨A, hA⟩ := (Pallas.exists_locates_iff _).mpr hleft
    obtain ⟨B, hB⟩ := (Pallas.exists_locates_iff _).mpr hright
    -- The order is odd, so no point has a vertical tangent.
    have htorsion := Pallas.add_self_ne_zero hA.ne_zero
    have hsum := locates_of_flaw? h hA hB htorsion
    have hopposite : opposite gate.left gate.right = decide (gate.right = -gate.left) := by
      rw [Bool.eq_iff_iff, opposite_iff hA hB htorsion, hA.add_eq_zero_iff hB, decide_eq_true_iff,
        Coordinates.ext_iff, neg_x, neg_y, eq_comm (a := gate.right.x), ← neg_eq_iff_eq_neg,
        eq_comm (a := -gate.left.y)]
    refine ⟨sameX_of_flaw? h, by rw [isInfinity_of_flaw? h, hopposite], fun hfinite => ?_⟩
    have hne : A + B ≠ 0 := by
      intro hzero
      rw [hsum.1 hzero] at hfinite
      exact Residue.one_ne_zero hfinite
    have hlocates := (hsum.2 hne).2
    exact ⟨hlocates.equation,
      ((Pallas.Represents.affine hA).add (.affine hB)).unique (.affine hlocates),
      A, B, hA, hB, hlocates⟩

theorem adds_points_generator :
    let G : Coordinates Fp := Pallas.generator.toCoordinates
    ((honest G G).flaw? = none ∧ (honest G G).sameX = 1 ∧ (honest G G).isInfinity = 0 ∧
      Pallas.generator + Pallas.generator = .affine (honest G G).sum) ∧
    (honest G (-G)).flaw? = none ∧ (honest G (-G)).isInfinity = 1 := by
  intro G
  obtain ⟨hcomplete, hsound⟩ := adds_points
  have hG : G.y ^ 2 = G.x ^ 3 + Pallas.b := by decide +kernel
  have hneg : (-G).y ^ 2 = (-G).x ^ 3 + Pallas.b := by decide +kernel
  have hy : G.y ≠ 0 := by decide +kernel
  have hdouble := (hcomplete G G).mpr fun h => hy h.2.2
  have hopposite := (hcomplete G (-G)).mpr fun h => hy h.2.2
  obtain ⟨hsame, hfinite, hsum⟩ := hsound (honest G G) hG hG hdouble
  have hzero : (honest G G).isInfinity = 0 := by
    rw [hfinite]
    decide +kernel
  refine ⟨⟨hdouble, by rw [hsame]; decide +kernel, hzero, (hsum hzero).2.1⟩, hopposite, ?_⟩
  rw [(hsound (honest G (-G)) hG hneg hopposite).2.1]
  decide +kernel

end AdditionGate

end PallasCircuits
