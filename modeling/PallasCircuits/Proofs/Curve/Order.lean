import Mathlib.GroupTheory.OrderOfElement
import PallasCircuits.Curve.Pallas
import PallasCircuits.Proofs.Curve.Group

namespace PallasCircuits.Pallas

open Coordinates

/-! The points of Pallas form a group of prime order `q`. The generator has this order, and
there are too few points for a second coset of its multiples. -/

abbrev Point := (curve Pallas.b).Point

/-- A value stands for the point of the curve with its coordinates. -/
inductive Represents : Pallas → Point → Prop
  | infinity : Represents infinity 0
  | affine {P : Coordinates Fp} {A : Point} (hP : P.Locates A) : Represents (affine P) A

variable {P Q : Pallas} {A B : Point}

theorem Represents.toCoordinates (h : P.Represents A) : P.toCoordinates = ofPoint A := by
  cases h with
  | infinity => rfl
  | affine hP => exact hP.eq_ofPoint

theorem Represents.double (h : P.Represents A) : P.double.Represents (A + A) := by
  cases h with
  | infinity => simpa [Pallas.double] using Represents.infinity
  | @affine P A hP =>
      cases hdouble : P.double? with
      | some R =>
          simp only [Pallas.double, hdouble]
          exact .affine (hP.double? hdouble)
      | none =>
          have hy := (double?_eq_none_iff P).mp hdouble
          rw [Residue.double_eq, two_mul, ← eq_neg_iff_add_eq_zero] at hy
          have hsum : A + A = 0 := (hP.add_eq_zero_iff hP).mpr ⟨rfl, hy⟩
          simp only [Pallas.double, hdouble, hsum]
          exact .infinity

theorem Represents.add (hP : P.Represents A) (hQ : Q.Represents B) :
    (P + Q).Represents (A + B) := by
  cases hP with
  | infinity =>
      have hsum : Pallas.infinity + Q = Q := Pallas.zero_add Q
      simpa [hsum] using hQ
  | @affine P A hP =>
      cases hQ with
      | infinity =>
          have hsum : Pallas.affine P + Pallas.infinity = Pallas.affine P :=
            Pallas.add_zero (Pallas.affine P)
          simpa [hsum] using Represents.affine hP
      | @affine Q B hQ =>
          change Represents (Pallas.add (Pallas.affine P) (Pallas.affine Q)) (A + B)
          cases hsum : P.addIncomplete? Q with
          | some R =>
              simp only [Pallas.add, hsum]
              exact .affine (hP.addIncomplete? hQ hsum)
          | none =>
              have hx : P.x = Q.x :=
                (sub_eq_zero.mp ((addIncomplete?_eq_none_iff P Q).mp hsum)).symm
              simp only [Pallas.add, hsum]
              split
              · next hy =>
                  obtain rfl : P = Q := Coordinates.ext hx hy
                  obtain rfl := hP.unique hQ
                  exact (Represents.affine hP).double
              · next hy =>
                  have hopposite := (hP.y_eq_or_neg hQ hx).resolve_left hy
                  rw [(hP.add_eq_zero_iff hQ).mpr ⟨hx, hopposite⟩]
                  exact .infinity

theorem Represents.scale (h : P.Represents A) (k : Nat) : (P.scale k).Represents (k • A) := by
  refine Binary.ladder_induction (motive := fun acc j => Represents acc (j • A)) ?_ ?_ ?_ k
  · rw [zero_nsmul]
    exact .infinity
  · intro acc j hacc
    rw [two_mul, add_nsmul]
    exact hacc.double
  · intro acc j hacc
    rw [succ_nsmul]
    exact hacc.add h

/-! ### The order of the group -/

theorem discriminant_ne_zero : (curve Pallas.b).Δ ≠ 0 := by
  decide +kernel

theorem Represents.eq_zero_iff (h : P.Represents A) : A = 0 ↔ P = 0 := by
  cases h with
  | infinity => exact iff_of_true rfl rfl
  | affine hP => exact iff_of_false hP.ne_zero (by rintro ⟨⟩)

theorem Represents.unique (hP : P.Represents A) (hQ : Q.Represents A) : P = Q := by
  cases hP with
  | infinity =>
      cases hQ with
      | infinity => rfl
      | affine hQ => exact absurd rfl hQ.ne_zero
  | affine hP =>
      cases hQ with
      | infinity => exact absurd rfl hP.ne_zero
      | affine hQ => exact congrArg Pallas.affine (hP.eq_ofPoint.trans hQ.eq_ofPoint.symm)

theorem exists_locates_iff (P : Coordinates Fp) :
    (∃ A : Point, P.Locates A) ↔ P.y ^ 2 = P.x ^ 3 + Pallas.b := by
  constructor
  · rintro ⟨A, hA⟩
    exact hA.equation
  · intro h
    have hnonsingular := (WeierstrassCurve.Affine.equation_iff_nonsingular_of_Δ_ne_zero
      discriminant_ne_zero).mp ((equation_iff_eq P.x P.y).mpr h)
    exact ⟨.some P.x P.y hnonsingular, hnonsingular, rfl⟩

theorem isOnCurve_affine_iff (P : Coordinates Fp) :
    (affine P).isOnCurve = true ↔ P.y ^ 2 = P.x ^ 3 + Pallas.b := by
  simp [isOnCurve, pow_succ]

theorem exists_represents_iff (P : Pallas) :
    (∃ A, P.Represents A) ↔ P.isOnCurve = true := by
  cases P with
  | infinity => exact iff_of_true ⟨0, .infinity⟩ rfl
  | affine P =>
      rw [isOnCurve_affine_iff, ← exists_locates_iff]
      constructor
      · rintro ⟨A, hA⟩
        cases hA with
        | affine hP => exact ⟨A, hP⟩
      · rintro ⟨A, hP⟩
        exact ⟨A, .affine hP⟩

theorem represents_ofCoordinates (A : Point) : (ofCoordinates (ofPoint A)).Represents A := by
  by_cases hA : A = 0
  · rw [hA]
    exact .infinity
  · have hlocates := locates_ofPoint hA
    have hne : ofPoint A ≠ 0 := by
      intro hzero
      have hequation := hlocates.equation
      rw [hzero] at hequation
      exact absurd hequation (by decide +kernel)
    rw [ofCoordinates, if_neg hne]
    exact .affine hlocates

theorem generator_scale_order :
    generator.isOnCurve = true ∧ generator.scale Pasta.q = infinity := by
  decide +kernel

def compress : Point → Option (Fp × Bool)
  | .zero => none
  | .some x y _ => some (x, y.val.testBit 0)

theorem compress_injective : Function.Injective compress := by
  intro A B h
  cases A with
  | zero =>
      cases B with
      | zero => rfl
      | some x y hB => cases h
  | some x y hA =>
      cases B with
      | zero => cases h
      | some x' y' hB =>
          simp only [compress, Option.some.injEq, Prod.mk.injEq] at h
          obtain ⟨rfl, hparity⟩ := h
          have hP : (⟨x, y⟩ : Coordinates Fp).Locates (.some x y hA : Point) := ⟨hA, rfl⟩
          have hQ : (⟨x, y'⟩ : Coordinates Fp).Locates (.some x y' hB : Point) := ⟨hB, rfl⟩
          have hy : y = y' := by
            rcases hP.y_eq_or_neg hQ rfl with heq | hneg
            · exact heq
            · have hneg : y = -y' := hneg
              rw [hneg] at hparity ⊢
              exact Residue.neg_eq_of_parity hparity
          subst hy
          rfl

instance : Finite Point := Finite.of_injective compress compress_injective

theorem card_point_le : Nat.card Point ≤ 2 * Pasta.p + 1 := by
  have hle := Nat.card_le_card_of_injective compress compress_injective
  have hbool : Nat.card Bool = 2 := by simp [Nat.card_eq_fintype_card]
  rw [Finite.card_option, Nat.card_prod, Residue.card_residue, hbool] at hle
  omega

theorem exists_generator : ∃ G : Point, generator.Represents G ∧ G ≠ 0 := by
  obtain ⟨G, hG⟩ := (exists_represents_iff _).mpr generator_scale_order.1
  exact ⟨G, hG, hG.eq_zero_iff.not.mpr (by rintro ⟨⟩)⟩

theorem order_dvd_card_point : Pasta.q ∣ Nat.card Point := by
  obtain ⟨G, hG, hne⟩ := exists_generator
  have hscale := hG.scale Pasta.q
  have hzero : Pasta.q • G = 0 := hscale.eq_zero_iff.mpr generator_scale_order.2
  have horder : addOrderOf G = Pasta.q := addOrderOf_eq_prime hzero hne
  rw [← horder]
  exact addOrderOf_dvd_natCard G

theorem card_point : Nat.card Point = Pasta.q := by
  obtain ⟨m, hm⟩ := order_dvd_card_point
  have hle := card_point_le
  have hpos : 0 < Nat.card Point := Nat.card_pos
  have hfew : 2 * Pasta.p + 1 < Pasta.q * 2 := by decide
  have hlt : Pasta.q * m < Pasta.q * 2 := by omega
  have hone : m = 1 := by
    have := Nat.lt_of_mul_lt_mul_left hlt
    have : m ≠ 0 := by
      rintro rfl
      omega
    omega
  rw [hm, hone, mul_one]

theorem order_nsmul (A : Point) : Pasta.q • A = 0 := by
  rw [← card_point]
  exact card_nsmul_eq_zero'

theorem addOrderOf_eq (hA : A ≠ 0) : addOrderOf A = Pasta.q :=
  addOrderOf_eq_prime (order_nsmul A) hA

theorem nsmul_eq_zero_iff (hA : A ≠ 0) (k : Nat) : k • A = 0 ↔ Pasta.q ∣ k := by
  rw [← addOrderOf_eq hA]
  exact addOrderOf_dvd_iff_nsmul_eq_zero.symm

theorem add_self_ne_zero (hA : A ≠ 0) : A + A ≠ 0 := by
  rw [← two_nsmul, ne_eq, nsmul_eq_zero_iff hA]
  decide

theorem nsmul_add_order (A : Point) (j k : Nat) : (j + Pasta.q * k) • A = j • A := by
  rw [add_nsmul, mul_nsmul, order_nsmul, nsmul_zero, AddMonoid.add_zero]

theorem nsmul_mod (A : Point) (k : Nat) : (k % Pasta.q) • A = k • A := by
  conv_rhs => rw [← Nat.mod_add_div k Pasta.q]
  exact (nsmul_add_order A _ _).symm

theorem nsmul_eq_of_natCast {k : Nat} {u : Fq} (h : (k : Fq) = u) (A : Point) :
    k • A = u.val • A := by
  rw [← h, Residue.val_natCast, nsmul_mod]

/-- A point with `x = 0` would have order three, as its tangent is horizontal. -/
theorem ofPoint_x_ne_zero (hA : A ≠ 0) : (ofPoint A).x ≠ 0 := by
  intro hx
  have hlocates := locates_ofPoint hA
  have hslope : IsSlope 0 (ofPoint A) (ofPoint A) :=
    ⟨fun hne => absurd rfl hne, fun _ => by rw [hx]; ring⟩
  have hdouble := hlocates.along hlocates hslope (add_self_ne_zero hA)
  have hreflected : along 0 (ofPoint A) (ofPoint A) = -ofPoint A := by
    refine Coordinates.ext ?_ ?_
    · simp [along, Residue.square_eq, hx]
    · simp [along]
  rw [hreflected] at hdouble
  have hthree : 3 • A = 0 := by
    rw [succ_nsmul, two_nsmul, hdouble.unique hlocates.neg, neg_add_cancel]
  exact absurd ((nsmul_eq_zero_iff hA 3).mp hthree) (by decide)

theorem ofPoint_eq_zero_iff : ofPoint A = 0 ↔ A = 0 := by
  constructor
  · intro hzero
    by_contra hA
    exact ofPoint_x_ne_zero hA (congrArg Coordinates.x hzero)
  · rintro rfl
    rfl

end PallasCircuits.Pallas
