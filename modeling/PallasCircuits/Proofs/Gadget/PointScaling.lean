import PallasCircuits.Gadget.PointScaling
import PallasCircuits.Proofs.Curve.Order
import PallasCircuits.Proofs.Gadget.PointAddition
import PallasCircuits.Proofs.Gadget.Range
import PallasCircuits.Proofs.Gadget.Setup

namespace PallasCircuits

open Builder Coordinates

variable {σ : Type} {ρ : Nat → Fp}

/-! Scaling inside a circuit is multiplication in the group of points. -/

namespace ScalarVar

theorem offset_eq : offset = 2 * (Pasta.q - 2 ^ 254) := by
  decide +kernel

theorem testBit_offset : offset.testBit 0 = false := by
  rw [offset_eq]
  simp [Nat.testBit_zero]

theorem unshift_eq (lo hi : Fp) :
    unshift lo hi = ((2 * hi.val + lo.val + 2 ^ 255 : Nat) : Fq) := by
  rw [unshift, Binary.twoPow_eq, Residue.ofNat_eq_natCast, Nat.add_comm lo.val]

/-- The offset is even, so nothing is carried, and the shifted halves do not wrap around. -/
theorem ofExprParts_ensures (s : Expr Pasta.p) :
    Ensures ρ (ofExprParts s : Builder Pasta.p σ (BoolVar Pasta.p × Expr Pasta.p × ScalarVar))
      fun r => r.1.Means ρ ((s.eval ρ).val.testBit 0) ∧
        (r.2.1.eval ρ).val = (s.eval ρ).val / 2 ∧
        r.2.2.lo.Means ρ ((s.eval ρ).val.testBit 0) ∧
        (r.2.2.hi.eval ρ).val = (s.eval ρ).val / 2 + (Pasta.q - 2 ^ 254) := by
  have hhalf : offset / 2 = Pasta.q - 2 ^ 254 := by
    rw [offset_eq, Nat.mul_div_cancel_left _ (by decide)]
  unfold ofExprParts
  rw [testBit_offset, hhalf]
  refine .bind (Expr.halve_ensures s) ?_
  rintro ⟨parity, half⟩
  apply (Expr.wire_ensures _).bind
  intro carry
  apply (Expr.assertBool_ensures _).bind
  intro lo
  refine .bind (Expr.wire_ensures _) fun hi => .pure ?_
  rintro hhi ⟨hlo, -⟩ hcarry ⟨hparity, hhalf⟩
  rw [Expr.eval_smul, Residue.ofBool_false, zero_mul] at hcarry
  refine ⟨hparity, hhalf, ?_, ?_⟩
  · unfold BoolVar.Means at hparity ⊢
    rw [hlo, Expr.eval_minus, Expr.eval_plus, Expr.eval_smul, Expr.eval_const, hcarry, hparity,
      Residue.ofBool_false, mul_zero, add_zero, sub_zero]
  · have hsmall : Pasta.q - 2 ^ 254 < 2 ^ 127 := by decide
    have hlt := (s.eval ρ).isLt
    have hp := PastaPrime.two_pow_lt (n := Pasta.p)
    have hsum : hi.eval ρ =
        (((s.eval ρ).val / 2 + (Pasta.q - 2 ^ 254) : Nat) : Fp) := by
      rw [hhi, Expr.eval_plus, Expr.eval_plus, Expr.eval_const, hcarry, add_zero, Nat.cast_add,
        ← hhalf, Residue.natCast_val]
      rfl
    rw [hsum]
    exact Residue.val_natCast_of_lt (by omega)

theorem ofExprParts_builds (s : Expr Pasta.p) :
    Builds (ofExprParts s : Builder Pasta.p σ (BoolVar Pasta.p × Expr Pasta.p × ScalarVar))
      fun _ => True := by
  unfold ofExprParts
  rw [testBit_offset]
  refine (Expr.halve_builds s).bind ?_
  rintro ⟨parity, half⟩ hparity
  refine Builds.bind (P := fun carry => carry = .const 0) (.pure rfl) fun carry hcarry => ?_
  subst hcarry
  refine (Expr.assertBool_builds fun a ha => ?_).bind fun lo _ => ?_
  · rcases hparity with hopen | ⟨b, hb⟩
    · rw [Expr.toConstant?_of_pos] at ha
      · cases ha
      · simp only [Expr.occurrences_minus, Expr.occurrences_plus]
        simp only at hopen
        omega
    · have hvalue := Expr.eval_of_toConstant? (fun _ => 0) ha
      simp only at hb
      rw [← hvalue, hb]
      cases b <;> simp [BoolVar.constant]
  · exact (Expr.wire_builds _).bind fun hi _ => .pure trivial

end ScalarVar

namespace PointVar

theorem assertZeros_builds {xs : List (Expr Pasta.p)} (h : ∀ x ∈ xs, 0 < x.occurrences) :
    Builds (assertZeros xs : Builder Pasta.p σ Unit) fun _ => True :=
  .forM fun x hx => Expr.assertEqual_builds_of_pos (Nat.add_pos_left (h x hx) _)

theorem scale_builds (P : PointVar Pasta.p) (s : Expr Pasta.p) :
    Builds (scale P s : Builder Pasta.p σ (PointVar Pasta.p)) fun _ => True := by
  have hvar : Builds (scaleVar P s : Builder Pasta.p σ (PointVar Pasta.p)) fun _ => True := by
    refine (ScalarVar.ofExprParts_builds s).bind ?_
    rintro ⟨parity, half, t⟩ -
    apply (Expr.isEqual_builds half 0).bind
    intro degenerate _
    apply (BoolVar.choose_builds degenerate 0 t.hi).bind
    intro hi _
    refine (scaleUnpack_builds P hi 255).bind ?_
    rintro ⟨R, bits⟩ ⟨hR, hbits⟩
    refine (assertZeros_builds fun x hx => hbits x (List.mem_of_mem_drop hx)).bind fun _ _ => ?_
    apply (addFinite_builds (neg P) hR).bind
    intro R' _
    apply (BoolVar.select_builds t.lo R R').bind
    intro S _
    exact (BoolVar.select_builds parity P zero).bind fun small _ =>
      BoolVar.select_builds degenerate small S
  simp only [scale]
  cases CircuitType.constantValue? (n := Pasta.p) P with
  | none => exact hvar
  | some a =>
      cases s.toConstant? with
      | none => exact hvar
      | some k => exact .pure trivial

theorem assertZeros_ensures (xs : List (Expr Pasta.p)) :
    Ensures ρ (assertZeros xs : Builder Pasta.p σ Unit) fun _ => ∀ x ∈ xs, x.eval ρ = 0 :=
  .forM fun x => Expr.assertEqual_ensures x 0

theorem Unpacks.of_zeros {P R : PointVar Pasta.p} {scalar : Expr Pasta.p}
    {bits : List (Expr Pasta.p)} {count : Nat} (hcount : count ≤ 254)
    (hunpacks : Unpacks ρ Pallas.b P scalar 255 (R, bits))
    (hzeros : ∀ x ∈ bits.drop count, x.eval ρ = 0) :
    (scalar.eval ρ).val < 2 ^ count ∧ ∀ A : Pallas.Point, (P.eval ρ).Locates A →
      (R.eval ρ).Locates ((2 * (scalar.eval ρ).val + 1 + 2 ^ 255) • A) := by
  obtain ⟨digits, -, hbits, hscalar, hR⟩ := hunpacks
  have hdrop : ∀ bit ∈ digits.drop count, bit = false := by
    intro bit hbit
    have hmem : Residue.ofBool bit ∈ (bits.drop count).map (Expr.eval ρ) := by
      rw [List.map_drop, hbits, ← List.map_drop]
      exact List.mem_map_of_mem hbit
    obtain ⟨x, hx, heq⟩ := List.mem_map.mp hmem
    rw [hzeros x hx] at heq
    exact (Residue.ofBool_eq_zero_iff bit).mp heq.symm
  have hlt := Binary.ofDigits_lt_of_drop hdrop
  have hval : (scalar.eval ρ).val = Binary.ofDigits digits := by
    rw [hscalar]
    exact Residue.val_natCast_of_lt_two_pow
      (hlt.trans_le (Nat.pow_le_pow_right (by decide) hcount))
  rw [hval]
  exact ⟨hlt, hR⟩

theorem ite_testBit_eq_ofPoint {Q Q' : Coordinates Fp} {k : Nat} {A : Pallas.Point}
    (hodd : Q = ofPoint ((2 * (k / 2) + 1) • A)) (heven : Q' = ofPoint ((2 * (k / 2)) • A)) :
    (if k.testBit 0 = true then Q else Q') = ofPoint (k • A) := by
  rcases Nat.mod_two_eq_zero_or_one k with hmod | hmod
  · have hk : 2 * (k / 2) = k := by omega
    rw [Nat.testBit_zero, hmod, decide_eq_false Nat.zero_ne_one, if_neg Bool.false_ne_true, heven,
      hk]
  · have hk : 2 * (k / 2) + 1 = k := by omega
    rw [Nat.testBit_zero, hmod, decide_eq_true rfl, if_pos rfl, hodd, hk]

theorem scaleVar_ensures (P : PointVar Pasta.p) (s : Expr Pasta.p) :
    Ensures ρ (scaleVar P s : Builder Pasta.p σ (PointVar Pasta.p)) fun R =>
      ∀ A : Pallas.Point, (P.eval ρ).Locates A →
        R.eval ρ = ofPoint ((s.eval ρ).val • A) := by
  unfold scaleVar
  refine .bind (ScalarVar.ofExprParts_ensures s) ?_
  rintro ⟨parity, half, t⟩
  apply (Expr.isEqual_ensures half 0).bind
  intro degenerate
  apply (BoolVar.choose_ensures degenerate 0 t.hi).bind
  intro hi
  refine .bind (scaleUnpack_ensures (b := Pallas.b) P hi 255) ?_
  rintro ⟨R, bits⟩
  apply (assertZeros_ensures _).bind
  intro _
  apply (addFinite_ensures (b := Pallas.b) R (neg P)).bind
  intro R'
  apply (BoolVar.select_point_ensures t.lo R R').bind
  intro S
  apply (BoolVar.select_point_ensures parity P zero).bind
  intro small
  refine (BoolVar.select_point_ensures degenerate small S).mono ?_
  intro result hresult hsmall hS hR' hzeros hunpacks hhi hdegenerate
  rintro ⟨hparity, hhalf, hlo, hhigh⟩ A hA
  rw [hresult _ hdegenerate, Expr.eval_zero]
  by_cases hzero : half.eval ρ = 0
  · rw [decide_eq_true hzero, if_pos rfl, hsmall _ hparity]
    have hhalf_zero : (s.eval ρ).val / 2 = 0 := by
      rw [← hhalf, hzero, Residue.val_zero]
    apply ite_testBit_eq_ofPoint
    · rw [hhalf_zero, mul_zero, zero_add, one_nsmul]
      exact hA.eq_ofPoint
    · rw [hhalf_zero, mul_zero, zero_nsmul]
      simp [zero]
  · rw [decide_eq_false hzero, if_neg Bool.false_ne_true, hS _ hlo]
    have hhi := hhi _ hdegenerate
    rw [Expr.eval_zero, decide_eq_false hzero, if_neg Bool.false_ne_true] at hhi
    have hR := (hunpacks.of_zeros le_rfl hzeros).2 A hA
    have hodd : 2 * (hi.eval ρ).val + 1 + 2 ^ 255 =
        2 * ((s.eval ρ).val / 2) + 1 + Pasta.q * 2 := by
      have hq := PastaPrime.two_pow_lt (n := Pasta.q)
      rw [hhi, hhigh]
      omega
    rw [hodd, Pallas.nsmul_add_order] at hR
    have hA' := hA.neg
    rw [← eval_neg] at hA'
    obtain ⟨-, hR'⟩ := hR' _ _ hR hA' (Pallas.add_self_ne_zero hR.ne_zero)
    rw [succ_nsmul, add_neg_cancel_right] at hR'
    exact ite_testBit_eq_ofPoint hR.eq_ofPoint hR'.eq_ofPoint

theorem scaleConstant_eq (A : Pallas.Point) (s : Fq) :
    scaleConstant (ofPoint A) s = ofPoint (s.val • A) :=
  ((Pallas.represents_ofCoordinates A).scale s.val).toCoordinates

theorem scale_ensures (P : PointVar Pasta.p) (s : Expr Pasta.p) :
    Ensures ρ (scale P s : Builder Pasta.p σ (PointVar Pasta.p)) fun R =>
      ∀ A : Pallas.Point, (P.eval ρ).Locates A →
        R.eval ρ = ofPoint ((s.eval ρ).val • A) := by
  simp only [scale]
  cases hP : CircuitType.constantValue? (n := Pasta.p) P with
  | none => exact scaleVar_ensures P s
  | some a =>
      cases hs : s.toConstant? with
      | none => exact scaleVar_ensures P s
      | some k =>
          apply Ensures.pure
          intro A hA
          rw [eval_of_constantValue? hP] at hA
          have hlt : k.val < Pasta.q := k.isLt.trans (by decide)
          rw [Expr.eval_of_toConstant? ρ hs, eval_constant, hA.eq_ofPoint, scaleConstant_eq,
            Residue.val_ofNat, Nat.mod_eq_of_lt hlt]

/-! ### Shifted scalars -/

/-- Tells the two degenerate high parts apart, and replaces them by zero. -/
def splitHigh (t : ScalarVar) (count : Nat) :
    Builder Pasta.p σ (BoolVar Pasta.p × BoolVar Pasta.p × Expr Pasta.p) := do
  let high : Fp := .ofNat degenerateHigh
  let isOne ← t.hi.isEqual (.const high)
  let isMinusOne ← t.hi.isEqual (.const (high - 1))
  let degenerate ← isOne.or isMinusOne
  if count < Binary.width degenerateHigh then
    degenerate.assertFalse
  let hi ← degenerate.choose 0 t.hi
  return (isOne, degenerate, hi)

theorem scaleShiftedVar_eq (P : PointVar Pasta.p) (t : ScalarVar) (count : Nat) :
    (scaleShiftedVar P t count : Builder Pasta.p σ (PointVar Pasta.p)) = (do
      let (isOne, degenerate, hi) ← splitHigh t count
      let (R, bits) ← scaleUnpack P hi 255
      assertZeros (bits.drop count)
      let y ← P.y.mul (((2 : Nat) : Fp) • isOne.expr - 1)
      let R ← degenerate.select ⟨P.x, y⟩ R
      let (R', isInfinity) ← add R (neg P)
      let R' ← isInfinity.select zero R'
      t.lo.select R R') := by
  simp only [scaleShiftedVar, splitHigh, bind_assoc]
  refine congrArg _ (funext fun isOne => congrArg _ (funext fun isMinusOne =>
    congrArg _ (funext fun degenerate => ?_)))
  split
  · simp only [bind_assoc, pure_bind]
  · simp only [bind_assoc, pure_bind]

def splitValue (hi : Nat) : Nat :=
  if hi = degenerateHigh ∨ hi = degenerateHigh - 1 then 0 else hi

theorem val_degenerateHigh :
    (Residue.ofNat degenerateHigh : Fp).val = degenerateHigh ∧
      (Residue.ofNat degenerateHigh - 1 : Fp).val = degenerateHigh - 1 := by
  decide +kernel

theorem decide_eq_degenerateHigh (b : Fp) :
    decide (b = .ofNat degenerateHigh) = decide (b.val = degenerateHigh) ∧
      decide (b = .ofNat degenerateHigh - 1) = decide (b.val = degenerateHigh - 1) := by
  constructor
  · rw [decide_eq_decide, Residue.ext_iff, val_degenerateHigh.1]
  · rw [decide_eq_decide, Residue.ext_iff, val_degenerateHigh.2]

theorem splitHigh_ensures (t : ScalarVar) (count : Nat) :
    Ensures ρ (splitHigh t count :
      Builder Pasta.p σ (BoolVar Pasta.p × BoolVar Pasta.p × Expr Pasta.p)) fun r =>
        r.1.Means ρ (decide ((t.hi.eval ρ).val = degenerateHigh)) ∧
          r.2.1.Means ρ (decide ((t.hi.eval ρ).val = degenerateHigh ∨
            (t.hi.eval ρ).val = degenerateHigh - 1)) ∧
          ((t.hi.eval ρ).val = degenerateHigh ∨ (t.hi.eval ρ).val = degenerateHigh - 1 →
            (t.hi.eval ρ).val < 2 ^ count) ∧
          r.2.2.eval ρ = (splitValue (t.hi.eval ρ).val : Fp) := by
  obtain ⟨hone, hminusOne⟩ := decide_eq_degenerateHigh (t.hi.eval ρ)
  unfold splitHigh
  apply (Expr.isEqual_ensures t.hi _).bind
  intro isOne
  apply (Expr.isEqual_ensures t.hi _).bind
  intro isMinusOne
  apply (BoolVar.or_ensures isOne isMinusOne).bind
  intro degenerate
  refine .guard (BoolVar.assertFalse_ensures degenerate) ?_
  refine (BoolVar.choose_ensures degenerate 0 t.hi).bind fun hi => .pure ?_
  intro hhi hguard hdegenerate hisMinusOne hisOne
  rw [Expr.eval_const, hone] at hisOne
  rw [Expr.eval_const, hminusOne] at hisMinusOne
  replace hdegenerate := hdegenerate _ _ hisOne hisMinusOne
  rw [← Bool.decide_or] at hdegenerate
  refine ⟨hisOne, hdegenerate, fun hsplit => ?_, ?_⟩
  · rw [decide_eq_true hsplit] at hdegenerate
    have hwide : Binary.width degenerateHigh ≤ count := by
      by_contra hshort
      exact Bool.false_ne_true ((hguard (by omega)).unique hdegenerate)
    have hlt : degenerateHigh < 2 ^ count := (Binary.width_le_iff degenerateHigh count).mp hwide
    omega
  · rw [hhi _ hdegenerate, splitValue]
    by_cases hsplit : (t.hi.eval ρ).val = degenerateHigh ∨ (t.hi.eval ρ).val = degenerateHigh - 1
    · rw [decide_eq_true hsplit, if_pos rfl, if_pos hsplit, Expr.eval_zero, Nat.cast_zero]
    · rw [decide_eq_false hsplit, if_neg Bool.false_ne_true, if_neg hsplit, Residue.natCast_val]

theorem splitHigh_builds (t : ScalarVar) {count : Nat}
    (hhi : count < Binary.width degenerateHigh → ∀ a, t.hi.toConstant? = some a →
      a.val ≠ degenerateHigh ∧ a.val ≠ degenerateHigh - 1) :
    Builds (splitHigh t count :
      Builder Pasta.p σ (BoolVar Pasta.p × BoolVar Pasta.p × Expr Pasta.p)) fun _ => True := by
  unfold splitHigh
  apply (Expr.isEqual_builds t.hi _).bind
  intro isOne hisOne
  apply (Expr.isEqual_builds t.hi _).bind
  intro isMinusOne hisMinusOne
  apply (BoolVar.or_builds isOne isMinusOne).bind
  intro degenerate hdegenerate
  refine .guard (fun hshort => ?_)
    ((BoolVar.choose_builds degenerate 0 t.hi).bind fun hi _ => .pure trivial)
  apply Expr.assertEqual_builds
  intro a b ha hb
  obtain rfl : 0 = b := by simpa using (Expr.toConstant?_const (0 : Fp)).symm.trans hb
  by_cases hopen : 0 < t.hi.occurrences
  · have hone := hisOne.1 (Nat.add_pos_left hopen _)
    have hminusOne := hisMinusOne.1 (Nat.add_pos_left hopen _)
    rw [Expr.toConstant?_of_pos (hdegenerate.1 hone hminusOne)] at ha
    cases ha
  · have hclosed : t.hi.occurrences = 0 := by omega
    obtain ⟨k, hk⟩ := Expr.toConstant?_of_eq_zero hclosed
    obtain ⟨hne, hne'⟩ := hhi hshort k hk
    obtain ⟨hone, hminusOne⟩ := decide_eq_degenerateHigh k
    obtain ⟨u, hu, huval⟩ := hisOne.2 hclosed
    obtain ⟨v, hv, hvval⟩ := hisMinusOne.2 hclosed
    have hufalse : u = false := by
      rw [huval fun _ => 0, Expr.eval_of_toConstant? _ hk, Expr.eval_const, hone]
      exact decide_eq_false hne
    have hvfalse : v = false := by
      rw [hvval fun _ => 0, Expr.eval_of_toConstant? _ hk, Expr.eval_const, hminusOne]
      exact decide_eq_false hne'
    have hvalue := hdegenerate.2 u v hu hv fun _ => 0
    rw [Expr.eval_of_toConstant? _ ha, hufalse, hvfalse] at hvalue
    exact hvalue

theorem degenerateHigh_multiple (A : Pallas.Point) :
    (2 * degenerateHigh + 1 + 2 ^ 255) • A = A ∧
      (2 * (degenerateHigh - 1) + 1 + 2 ^ 255) • A = -A := by
  have hone : 2 * degenerateHigh + 1 + 2 ^ 255 = 1 + Pasta.q * 2 := by
    decide +kernel
  have hminusOne : 2 * (degenerateHigh - 1) + 1 + 2 ^ 255 + 1 = 0 + Pasta.q * 2 := by
    decide +kernel
  constructor
  · rw [hone, Pallas.nsmul_add_order, one_nsmul]
  · rw [eq_neg_iff_add_eq_zero, ← succ_nsmul, hminusOne, Pallas.nsmul_add_order, zero_nsmul]

def signed (Q : Coordinates Fp) (hi : Nat) : Coordinates Fp :=
  ⟨Q.x, Q.y * (((2 : Nat) : Fp) * .ofBool (decide (hi = degenerateHigh)) - 1)⟩

theorem locates_signed {Q : Coordinates Fp} {A : Pallas.Point} (hA : Q.Locates A) {hi : Nat}
    (h : hi = degenerateHigh ∨ hi = degenerateHigh - 1) :
    (signed Q hi).Locates ((2 * hi + 1 + 2 ^ 255) • A) := by
  obtain ⟨hplus, hminus⟩ := degenerateHigh_multiple A
  rcases h with rfl | rfl
  · have hsigned : signed Q degenerateHigh = Q := by
      refine Coordinates.ext rfl ?_
      simp only [signed, decide_true, Residue.ofBool_true, Nat.cast_ofNat]
      ring
    rwa [hplus, hsigned]
  · have hdistinct : degenerateHigh - 1 ≠ degenerateHigh := by decide
    have hsigned : signed Q (degenerateHigh - 1) = -Q := by
      refine Coordinates.ext rfl ?_
      simp only [signed, decide_eq_false hdistinct, Residue.ofBool_false, neg_y]
      ring
    rw [hminus, hsigned]
    exact hA.neg

theorem scaleShiftedVar_ensures (P : PointVar Pasta.p) (t : ScalarVar) {count : Nat}
    (hcount : count ≤ 254) :
    Ensures ρ (scaleShiftedVar P t count : Builder Pasta.p σ (PointVar Pasta.p)) fun R =>
      ∀ (A : Pallas.Point) (v : Bool), (P.eval ρ).Locates A → t.lo.Means ρ v →
        (t.hi.eval ρ).val < 2 ^ count ∧
        R.eval ρ = ofPoint ((2 * (t.hi.eval ρ).val + v.toNat + 2 ^ 255) • A) := by
  rw [scaleShiftedVar_eq]
  refine .bind (splitHigh_ensures t count) ?_
  rintro ⟨isOne, degenerate, hi⟩
  refine .bind (scaleUnpack_ensures (b := Pallas.b) P hi 255) ?_
  rintro ⟨R, bits⟩
  apply (assertZeros_ensures _).bind
  intro _
  apply (Expr.mul_ensures P.y _).bind
  intro y
  apply (BoolVar.select_point_ensures degenerate ⟨P.x, y⟩ R).bind
  intro R₁
  refine .bind (add_ensures (b := Pallas.b) R₁ (neg P)) ?_
  rintro ⟨R₂, isInfinity⟩
  apply (BoolVar.select_point_ensures isInfinity zero R₂).bind
  intro R₃
  refine (BoolVar.select_point_ensures t.lo R₁ R₃).mono ?_
  intro result hresult hR₃ hR₂ hR₁ hy hzeros hunpacks
  rintro ⟨hisOne, hdegenerate, hshort, hhi⟩ A v hA hv
  have hfirst : (t.hi.eval ρ).val < 2 ^ count ∧
      (R₁.eval ρ).Locates ((2 * (t.hi.eval ρ).val + 1 + 2 ^ 255) • A) := by
    rw [hR₁ _ hdegenerate]
    by_cases hsplit : (t.hi.eval ρ).val = degenerateHigh ∨ (t.hi.eval ρ).val = degenerateHigh - 1
    · have hpoint : (⟨P.x, y⟩ : PointVar Pasta.p).eval ρ =
          signed (P.eval ρ) (t.hi.eval ρ).val := by
        refine Coordinates.ext rfl ?_
        simp only [Coordinates.eval, signed, hy, Expr.eval_minus, Expr.eval_smul, Expr.eval_one,
          show isOne.expr.eval ρ = _ from hisOne]
      rw [decide_eq_true hsplit, if_pos rfl, hpoint]
      exact ⟨hshort hsplit, locates_signed hA hsplit⟩
    · have hunpacked := hunpacks.of_zeros hcount hzeros
      rw [hhi, splitValue, if_neg hsplit, Residue.natCast_val] at hunpacked
      rw [decide_eq_false hsplit, if_neg Bool.false_ne_true]
      exact ⟨hunpacked.1, hunpacked.2 A hA⟩
  refine ⟨hfirst.1, ?_⟩
  have hA' := hA.neg
  rw [← eval_neg] at hA'
  have hR₃ := hR₂.eq_ofPoint hR₃ hfirst.2 hA' (Pallas.add_self_ne_zero hfirst.2.ne_zero)
  rw [hresult v hv]
  cases v with
  | true => exact hfirst.2.eq_ofPoint
  | false =>
      have hmultiple : 2 * (t.hi.eval ρ).val + 1 + 2 ^ 255 =
          2 * (t.hi.eval ρ).val + false.toNat + 2 ^ 255 + 1 := by
        simp only [Bool.toNat_false]
        omega
      rw [if_neg Bool.false_ne_true, hR₃, hmultiple, succ_nsmul, add_neg_cancel_right]

theorem nsmul_of_constantValue? {t : ScalarVar} {u : Fq}
    (hu : CircuitType.constantValue? (n := Pasta.p) t = some u) (A : Pallas.Point) :
    u.val • A = (2 * (t.hi.eval ρ).val + (t.lo.expr.eval ρ).val + 2 ^ 255) • A := by
  simp only [CircuitType.constantValue?, CircuitType.toExprs, List.mapM_cons, List.mapM_nil,
    Option.pure_def, Option.bind_eq_bind, Option.bind_some, Option.bind_eq_some_iff] at hu
  obtain ⟨_, ⟨lo, hlo, _, ⟨hi, hhi, ⟨⟩⟩, ⟨⟩⟩, hu⟩ := hu
  have hvalue : ScalarVar.unshift lo hi = u := Option.some.inj hu
  rw [ScalarVar.unshift_eq] at hvalue
  rw [Expr.eval_of_toConstant? ρ hlo, Expr.eval_of_toConstant? ρ hhi,
    Pallas.nsmul_eq_of_natCast hvalue]

theorem scaleShifted_of_var {P : PointVar Pasta.p} {t : ScalarVar} {count : Nat}
    (hcount : count ≤ highBits)
    (hvar : CircuitType.constantValue? (n := Pasta.p) P = none ∨
      CircuitType.constantValue? (n := Pasta.p) t = none) :
    (scaleShifted P t count : Builder Pasta.p σ (PointVar Pasta.p)) =
      scaleShiftedVar P t count := by
  unfold scaleShifted
  rw [if_neg (not_lt.mpr hcount)]
  split
  · next ha hs => rcases hvar with h | h <;> simp_all
  · rfl

theorem scaleShifted_ensures (P : PointVar Pasta.p) (t : ScalarVar) {count : Nat}
    (hcount : count ≤ highBits) :
    Ensures ρ (scaleShifted P t count : Builder Pasta.p σ (PointVar Pasta.p)) fun R =>
      ∀ (A : Pallas.Point) (v : Bool), (P.eval ρ).Locates A → t.lo.Means ρ v →
        R.eval ρ = ofPoint ((2 * (t.hi.eval ρ).val + v.toNat + 2 ^ 255) • A) := by
  have hvar : Ensures ρ (scaleShiftedVar P t count : Builder Pasta.p σ (PointVar Pasta.p)) _ :=
    (scaleShiftedVar_ensures P t hcount).mono fun R hR A v hA hv => (hR A v hA hv).2
  unfold scaleShifted
  rw [if_neg (not_lt.mpr hcount)]
  cases hP : CircuitType.constantValue? (n := Pasta.p) P with
  | none => exact hvar
  | some a =>
      cases ht : CircuitType.constantValue? (n := Pasta.p) t with
      | none => exact hvar
      | some u =>
          apply Ensures.pure
          intro A v hA hv
          rw [eval_of_constantValue? hP] at hA
          rw [eval_constant, hA.eq_ofPoint, scaleConstant_eq, nsmul_of_constantValue? (ρ := ρ) ht,
            hv, Residue.val_ofBool]

theorem scaleShifted_builds (P : PointVar Pasta.p) (t : ScalarVar) {count : Nat}
    (hcount : count ≤ highBits)
    (hhi : count < Binary.width degenerateHigh → ∀ a, t.hi.toConstant? = some a →
      a.val ≠ degenerateHigh ∧ a.val ≠ degenerateHigh - 1) :
    Builds (scaleShifted P t count : Builder Pasta.p σ (PointVar Pasta.p)) fun _ => True := by
  have hvar : Builds (scaleShiftedVar P t count : Builder Pasta.p σ (PointVar Pasta.p))
      fun _ => True := by
    rw [scaleShiftedVar_eq]
    refine (splitHigh_builds t hhi).bind ?_
    rintro ⟨isOne, degenerate, hi⟩ -
    refine (scaleUnpack_builds P hi 255).bind ?_
    rintro ⟨R, bits⟩ ⟨hR, hbits⟩
    refine (assertZeros_builds fun x hx => hbits x (List.mem_of_mem_drop hx)).bind fun _ _ => ?_
    apply (Expr.mul_builds P.y _).bind
    intro y _
    apply (BoolVar.select_builds degenerate _ R).bind
    intro R₁ _
    refine (add_builds R₁ (neg P)).bind ?_
    rintro ⟨R₂, isInfinity⟩ -
    exact (BoolVar.select_builds isInfinity zero R₂).bind fun R₃ _ =>
      BoolVar.select_builds t.lo R₁ R₃
  unfold scaleShifted
  rw [if_neg (not_lt.mpr hcount)]
  cases CircuitType.constantValue? (n := Pasta.p) P with
  | none => exact hvar
  | some a =>
      cases CircuitType.constantValue? (n := Pasta.p) t with
      | none => exact hvar
      | some s => exact .pure trivial

end PointVar

end PallasCircuits
