import PallasCircuits.Proofs.Curve.DoubleAndAdd
import PallasCircuits.Proofs.Gadget.Completeness
import PallasCircuits.Proofs.Gadget.PointScaling

namespace PallasCircuits

open Builder Coordinates

variable {σ : Type}

/-! Honest runs of the point gadgets go through, as long as the double-and-add is defined. -/

namespace PointVar

variable {n : Nat} [Modulus n] {s : Run n σ} {P Q : PointVar n} {A B : Coordinates (Residue n)}

theorem carries_constant (A : Coordinates (Residue n)) : s.Carries (constant A) A :=
  Run.carries_point.mpr ⟨.const A.x, .const A.y⟩

theorem eval_of_carries (hP : s.Carries P A) : P.eval s.assignment = A := by
  obtain ⟨hx, hy⟩ := Run.carries_point.mp hP
  exact Coordinates.ext hx.eval hy.eval

theorem below_of_carries (hP : s.Carries P A) : P.Below s.nextVar := by
  obtain ⟨hx, hy⟩ := Run.carries_point.mp hP
  exact ⟨hx.below, hy.below⟩

theorem carries_of_eval (hbelow : P.Below s.nextVar) (heval : P.eval s.assignment = A) :
    s.Carries P A := by
  subst heval
  exact Run.carries_point.mpr ⟨.of_below hbelow.1, .of_below hbelow.2⟩

theorem carries_neg (hP : s.Carries P A) : s.Carries (neg P) (-A) := by
  obtain ⟨hx, hy⟩ := Run.carries_point.mp hP
  exact Run.carries_point.mpr ⟨hx, hy.neg⟩

theorem eq_of_constantValue? {a : Coordinates (Residue n)} (hP : s.Carries P A)
    (ha : CircuitType.constantValue? (n := n) P = some a) : a = A := by
  exact (eval_of_constantValue? ha).symm.trans (eval_of_carries hP)

theorem wire_proves (hP : s.Carries P A) :
    Proves s (wire P : Builder n σ (PointVar n)) fun t Q => t.Carries Q A := by
  obtain ⟨hx, hy⟩ := Run.carries_point.mp hP
  refine (Expr.wire_proves hx).bind fun t x hst hx => ?_
  exact (Expr.wire_proves (hy.mono hst)).bind fun u y htu hy =>
    .pure (Run.carries_point.mpr ⟨hx.mono htu, hy⟩)

theorem addVar_proves (hP : s.Carries P A) (hQ : s.Carries Q B)
    (hflaw : (AdditionGate.honest A B).flaw? = none) :
    Proves s (addVar P Q : Builder n σ (PointVar n × BoolVar n)) fun t r =>
      t.Carries r.1 (AdditionGate.honest A B).sum ∧
        t.Carries r.2 (AdditionGate.opposite A B) := by
  have hread : s.Reads (do
      return (AdditionGate.honest (← CircuitType.read P) (← CircuitType.read Q)).chosen)
      (AdditionGate.honest A B).chosen :=
    .bind (.read_point hP) (.bind (.read_point hQ) (.pure _))
  unfold addVar
  refine (Proves.declare (fun hs => reading_eq_ok.mpr ⟨hread hs, rfl⟩) rfl).bind ?_
  intro t₁ cells h₁ hcells
  match cells, hcells.length_eq with
  | [sameX, isInfinity, infinityInverse, differenceInverse, slope, x, y], _ =>
      apply Proves.bind (.orAbort rfl (P := fun _ gate => gate = _) rfl)
      intro t₂ gate h₂ hgate
      subst hgate
      replace hcells := hcells.mono h₂
      have hinfinity : t₂.Carries isInfinity (.ofBool (AdditionGate.opposite A B)) :=
        (Run.carriesAll_cons.mp (Run.carriesAll_cons.mp hcells).2).1
      refine (Expr.assertBool_proves hinfinity).bind fun t₃ b h₃ hb => ?_
      refine (wire_proves (hP.mono ((h₁.trans h₂).trans h₃))).bind fun t₄ P' h₄ hP' => ?_
      refine (wire_proves (hQ.mono (((h₁.trans h₂).trans h₃).trans h₄))).bind
        fun t₅ Q' h₅ hQ' => ?_
      replace hcells := hcells.mono ((h₃.trans h₄).trans h₅)
      replace hP' := hP'.mono h₅
      have hbelow := hcells.below
      simp only [AdditionGate.chosen, Run.carriesAll_cons] at hcells
      obtain ⟨hsame, hinf, hinfz, hdiff, hslope, hx, hy, -⟩ := hcells
      have hsum : t₅.Carries (⟨x, y⟩ : PointVar n) (AdditionGate.honest A B).sum :=
        Run.carries_point.mpr ⟨hx, hy⟩
      refine (Proves.assert ?_ ?_).bind fun t₆ _ h₆ _ => .pure ⟨hsum.mono h₆, ?_⟩
      · exact ⟨below_of_carries hP', below_of_carries hQ', hbelow⟩
      · rw [Constraint.holds_addition]
        simp only [AdditionGate.eval, eval_of_carries hP', eval_of_carries hQ',
          eval_of_carries hsum, hsame.eval, hinf.eval, hinfz.eval, hdiff.eval, hslope.eval]
        exact hflaw
      · exact hb.mono ((h₄.trans h₅).trans h₆)

theorem add_proves (hP : s.Carries P A) (hQ : s.Carries Q B)
    (hflaw : (AdditionGate.honest A B).flaw? = none) :
    Proves s (add P Q : Builder n σ (PointVar n × BoolVar n)) fun t r =>
      t.Carries r.1 (AdditionGate.honest A B).sum ∧
        t.Carries r.2 (AdditionGate.opposite A B) := by
  simp only [add]
  cases ha : CircuitType.constantValue? (n := n) P with
  | none => exact addVar_proves hP hQ hflaw
  | some a =>
      obtain rfl := eq_of_constantValue? hP ha
      cases hc : CircuitType.constantValue? (n := n) Q with
      | none => exact addVar_proves hP hQ hflaw
      | some c =>
          obtain rfl := eq_of_constantValue? hQ hc
          refine .pure ⟨carries_constant _, ?_⟩
          rw [AdditionGate.decide_isInfinity_honest]
          exact BoolVar.carries_constant _

theorem addFinite_proves (hP : s.Carries P A) (hQ : s.Carries Q B)
    (hflaw : (AdditionGate.honest A B).flaw? = none)
    (hfinite : AdditionGate.opposite A B = false) :
    Proves s (addFinite P Q : Builder n σ (PointVar n)) fun t R =>
      t.Carries R (AdditionGate.honest A B).sum := by
  refine (add_proves hP hQ hflaw).bind ?_
  rintro t ⟨R, isInfinity⟩ hst ⟨hR, hinfinity⟩
  rw [hfinite] at hinfinity
  exact (BoolVar.assertFalse_proves hinfinity).bind fun u _ htu _ => .pure (hR.mono htu)

/-! ### Scaling -/

def scalingGate (base : PointVar n) (scalar : Expr n) (count : Nat) :
    Builder n σ (ScalingGate (Expr n)) := do
  let base ← wire base
  let scalar ← scalar.wire
  let cells ← declare (2 + count) <| reading do
    let P ← CircuitType.read base
    return ScalingGate.chosen P (← scalar.value) count
  orAbort (ScalingGate.ofChosen? base scalar cells)

theorem scaleUnpack_eq (base : PointVar n) (scalar : Expr n) (count : Nat) :
    (scaleUnpack base scalar count : Builder n σ (PointVar n × List (Expr n))) = do
      let gate ← scalingGate base scalar count
      assert (.scaling gate)
      return (gate.result, gate.bits) := by
  simp only [scaleUnpack, scalingGate, bind_assoc]

variable {scalar : Expr n} {k : Residue n} {count : Nat}

theorem scalingGate_proves (hP : s.Carries P A) (hscalar : s.Carries scalar k) :
    Proves s (scalingGate P scalar count : Builder n σ (ScalingGate (Expr n))) fun t gate =>
      t.Carries gate.base A ∧ t.Carries gate.scalar k ∧
        t.CarriesAll gate.bits ((Binary.digits count k.val).map .ofBool) ∧
        t.Carries gate.result ((A.doubleAndAdd? (Binary.digits count k.val)).getD 0) := by
  refine (wire_proves hP).bind fun t₁ P' h₁ hP' => ?_
  refine (Expr.wire_proves (hscalar.mono h₁)).bind fun t₂ scalar' h₂ hscalar' => ?_
  replace hP' := hP'.mono h₂
  have hread : t₂.Reads (do
      let P ← CircuitType.read P'
      return ScalingGate.chosen P (← scalar'.value) count) (ScalingGate.chosen A k count) :=
    .bind (.read_point hP') (.bind (.value hscalar') (.pure _))
  refine (Proves.declare (fun hs => reading_eq_ok.mpr ⟨hread hs, rfl⟩)
    ((ScalingGate.length_chosen A k count).trans (Nat.add_comm count 2))).bind ?_
  intro t₃ cells h₃ hcells
  have hlength : cells.length =
      ((Binary.digits count k.val).map (Residue.ofBool (n := n))).length + 2 := hcells.length_eq
  match cells, hlength with
  | x :: y :: bits, _ =>
      refine .orAbort rfl ?_
      simp only [ScalingGate.chosen, Run.carriesAll_cons] at hcells
      obtain ⟨hx, hy, hbits⟩ := hcells
      exact ⟨hP'.mono h₃, hscalar'.mono h₃, hbits, Run.carries_point.mpr ⟨hx, hy⟩⟩

theorem natCast_ofDigits_digits (hk : k.val < 2 ^ count) :
    (Binary.ofDigits (Binary.digits count k.val) : Residue n) = k := by
  rw [Binary.ofDigits_digits, Binary.twoPow_eq, Nat.mod_eq_of_lt hk, Residue.natCast_val]

theorem scaleUnpack_proves {R : Coordinates (Residue n)} (hP : s.Carries P A)
    (hscalar : s.Carries scalar k) (hk : k.val < 2 ^ count)
    (hR : A.doubleAndAdd? (Binary.digits count k.val) = some R) :
    Proves s (scaleUnpack P scalar count : Builder n σ (PointVar n × List (Expr n)))
      fun t r => t.Carries r.1 R ∧
        t.CarriesAll r.2 ((Binary.digits count k.val).map .ofBool) := by
  rw [scaleUnpack_eq]
  refine (scalingGate_proves hP hscalar).bind ?_
  rintro t gate hst ⟨hbase, hscalar, hbits, hresult⟩
  rw [hR, Option.getD_some] at hresult
  refine (Proves.assert ?_ ?_).bind fun u _ htu _ => .pure ⟨hresult.mono htu, hbits.mono htu⟩
  · exact ⟨below_of_carries hbase, hscalar.below, hbits.below, below_of_carries hresult⟩
  · rw [Constraint.holds_scaling, hscalar.eval, eval_of_carries hbase, eval_of_carries hresult]
    exact ⟨_, hbits.eval, (natCast_ofDigits_digits hk).symm, hR⟩

theorem scaleUnpack_fails (heval : s.evaluates = true) (hP : s.Carries P A)
    (hscalar : s.Carries scalar k) (hk : k.val < 2 ^ count)
    (hR : A.doubleAndAdd? (Binary.digits count k.val) = none) :
    Fails s (scaleUnpack P scalar count : Builder n σ (PointVar n × List (Expr n)))
      (.violation (.scaling .degenerate)) := by
  rw [scaleUnpack_eq]
  refine .bind (scalingGate_proves hP hscalar) ?_
  rintro t gate hst ⟨hbase, hscalar, hbits, hresult⟩
  refine .bind_left (.assert (hst.evaluates.trans heval) ?_ ?_)
  · exact ⟨below_of_carries hbase, hscalar.below, hbits.below, below_of_carries hresult⟩
  · refine Constraint.check_scaling_degenerate _ hbits.eval ?_ ?_
    · rw [hscalar.eval, natCast_ofDigits_digits hk]
    · rw [eval_of_carries hbase, hR]

end PointVar

/-! ### Multiples -/

namespace ScalarVar

variable {s : Run Pasta.p σ}

theorem natCast_shift (u : Fq) :
    ((2 * (shift u).2 + (shift u).1.toNat + 2 ^ 255 : Nat) : Fq) = u := by
  unfold shift
  simp only
  generalize hw : u - .twoPow 255 = w
  have hparts : 2 * (w.val / 2) + (w.val.testBit 0).toNat = w.val := by
    rw [Nat.testBit_zero]
    rcases Nat.mod_two_eq_zero_or_one w.val with h | h <;> simp [h] <;> omega
  rw [Residue.twoPow_eq] at hw
  rw [hparts, Nat.cast_add, Residue.natCast_val, ← hw]
  push_cast
  ring

theorem ofExprParts_proves {x : Expr Pasta.p} {a : Fp} (hx : s.Carries x a) :
    Proves s (ofExprParts x : Builder Pasta.p σ (BoolVar Pasta.p × Expr Pasta.p × ScalarVar))
      fun t r => t.Carries r.1 (a.val.testBit 0) ∧
        t.Carries r.2.1 ((a.val / 2 : Nat) : Fp) ∧
        t.Carries r.2.2.lo (a.val.testBit 0) ∧
        t.Carries r.2.2.hi ((a.val / 2 + PointVar.degenerateHigh : Nat) : Fp) := by
  have hhalf : offset / 2 = PointVar.degenerateHigh := by
    rw [offset_eq, Nat.mul_div_cancel_left _ (by decide)]
    rfl
  unfold ofExprParts
  rw [testBit_offset, hhalf]
  refine (Expr.halve_proves hx).bind ?_
  rintro t₁ ⟨parity, half⟩ h₁ ⟨hparity, hhalf⟩
  refine (Expr.wire_proves ((Run.carries_bool.mp hparity).smul (.ofBool false))).bind
    fun t₂ carry h₂ hcarry => ?_
  rw [Residue.ofBool_false, zero_mul] at hcarry
  replace hparity := hparity.mono h₂
  have hlo := ((Run.carries_bool.mp hparity).plus (.const (.ofBool false))).minus
    (hcarry.smul ((2 : Nat) : Fp))
  rw [Residue.ofBool_false, add_zero, mul_zero, sub_zero] at hlo
  refine (Expr.assertBool_proves hlo).bind fun t₃ lo h₃ hlo => ?_
  replace hparity := hparity.mono h₃
  replace hhalf := hhalf.mono (h₂.trans h₃)
  have hhi := (hhalf.plus (.const (.ofNat PointVar.degenerateHigh))).plus (hcarry.mono h₃)
  rw [add_zero, Residue.ofNat_eq_natCast, ← Nat.cast_add] at hhi
  exact (Expr.wire_proves hhi).bind fun t₄ hi h₄ hhi =>
    .pure ⟨hparity.mono h₄, hhalf.mono h₄, hlo.mono h₄, hhi⟩

end ScalarVar

namespace PointVar

variable {s : Run Pasta.p σ} {P : PointVar Pasta.p}

theorem assertZeros_proves {xs : List (Expr Pasta.p)}
    (h : ∀ x ∈ xs, s.Carries x (0 : Fp)) :
    Proves s (assertZeros xs : Builder Pasta.p σ Unit) fun _ _ => True :=
  .forM fun _ hst x hx => Expr.assertEqual_proves ((h x hx).mono hst) .zero

theorem carries_zero_of_drop {bits : List (Expr Pasta.p)} {length count k : Nat}
    (hbits : s.CarriesAll bits ((Binary.digits length k).map .ofBool)) (hk : k < 2 ^ count) :
    ∀ x ∈ bits.drop count, s.Carries x (0 : Fp) := by
  intro x hx
  have hvalue : x.eval s.assignment ∈ ((Binary.digits length k).drop count).map .ofBool := by
    rw [List.map_drop, ← hbits.eval, ← List.map_drop]
    exact List.mem_map_of_mem hx
  obtain ⟨bit, hbit, heq⟩ := List.mem_map.mp hvalue
  rw [Binary.eq_false_of_mem_drop hk bit hbit, Residue.ofBool_false] at heq
  exact Run.carries_expr.mpr ⟨hbits.below x (List.mem_of_mem_drop hx), heq.symm⟩

variable {A : Pallas.Point}

/-- A short high part can be unpacked, unless it is one of the exceptional ones. -/
theorem unpackHigh_proves (hA : A ≠ 0) (hP : s.Carries P (ofPoint A)) {hi : Expr Pasta.p}
    {k count : Nat} (hcount : count ≤ 254) (hk : k < 2 ^ count)
    (hne : k ≠ degenerateHigh ∧ k ≠ degenerateHigh - 1 ∧ k ≠ tripleHigh)
    (hhi : s.Carries hi (k : Fp)) :
    Proves s (scaleUnpack P hi 255 : Builder Pasta.p σ (PointVar Pasta.p × List (Expr Pasta.p)))
      fun t r => t.Carries r.1 (ofPoint ((2 * k + 1 + 2 ^ 255) • A)) ∧
        ∀ x ∈ r.2.drop count, t.Carries x (0 : Fp) := by
  have hlt : k < 2 ^ 254 := hk.trans_le (Nat.pow_le_pow_right (by decide) hcount)
  have hval : (k : Fp).val = k := Residue.val_natCast_of_lt_two_pow hlt
  obtain ⟨-, hR⟩ := DoubleAndAdd.doubleAndAdd?_eq_some hA hlt hne
  refine (scaleUnpack_proves hP hhi (by rw [hval]; omega) (by rw [hval, hR])).mono ?_
  rintro t r - ⟨hR, hbits⟩
  rw [hval] at hbits
  exact ⟨hR, carries_zero_of_drop hbits hk⟩

theorem carries_neg_ofPoint (hP : s.Carries P (ofPoint A)) :
    s.Carries (neg P) (ofPoint (-A)) := by
  rw [ofPoint_neg]
  exact carries_neg hP

theorem addFinite_points_proves {Q : PointVar Pasta.p} {B : Pallas.Point} (hA : A ≠ 0) (hB : B ≠ 0)
    (hP : s.Carries P (ofPoint A)) (hQ : s.Carries Q (ofPoint B)) (hsum : A + B ≠ 0) :
    Proves s (addFinite P Q : Builder Pasta.p σ (PointVar Pasta.p)) fun t R =>
      t.Carries R (ofPoint (A + B)) := by
  have hA' := locates_ofPoint hA
  have hB' := locates_ofPoint hB
  have htorsion := Pallas.add_self_ne_zero hA
  have hflaw := AdditionGate.flaw?_honest (ofPoint A) (ofPoint B) fun _ hzero =>
    absurd hzero (hA'.y_ne_zero htorsion)
  obtain ⟨hopposite, hfinite⟩ := AdditionGate.honest_sum hA' hB' htorsion
  have hfalse : AdditionGate.opposite (ofPoint A) (ofPoint B) = false := by
    rw [← Bool.not_eq_true, hopposite]
    exact hsum
  rw [← (hfinite hsum).eq_ofPoint]
  exact addFinite_proves hP hQ hflaw hfalse

def scaleHigh (a : Fp) : Nat :=
  if a.val / 2 = 0 then 0 else a.val / 2 + degenerateHigh

/-- No scalar below `p` has an exceptional high part, and the two multiples of the base that
the result is chosen from are finite. -/
theorem scaleHigh_spec (a : Fp) :
    scaleHigh a < 2 ^ 254 ∧
      (scaleHigh a ≠ degenerateHigh ∧ scaleHigh a ≠ degenerateHigh - 1 ∧
        scaleHigh a ≠ tripleHigh) ∧
      ¬Pasta.q ∣ 2 * scaleHigh a + 2 ^ 255 := by
  have hlt := a.isLt
  have hpq : Pasta.p < Pasta.q := by decide
  have hq : Pasta.q = 2 ^ 254 + degenerateHigh := by decide
  have hsmall : 1 < degenerateHigh ∧ degenerateHigh < 2 ^ 126 := by decide
  have htriple : 2 * tripleHigh + 1 + 2 ^ 255 = 3 * Pasta.q := by decide
  unfold scaleHigh
  split
  · refine ⟨by decide, by omega, Nat.not_dvd_of_lt_of_lt_mul_succ (k := 1) ?_ ?_⟩
    · omega
    · omega
  · refine ⟨by omega, by omega, Nat.not_dvd_of_lt_of_lt_mul_succ (k := 2) ?_ ?_⟩
    · omega
    · omega

theorem scaleVar_proves {A : Pallas.Point} (hA : A ≠ 0) (hP : s.Carries P (ofPoint A))
    {x : Expr Pasta.p} {a : Fp} (hx : s.Carries x a) :
    Proves s (scaleVar P x : Builder Pasta.p σ (PointVar Pasta.p)) fun t R =>
      t.Carries R (ofPoint (a.val • A)) := by
  obtain ⟨hshort, hne, hfinite⟩ := scaleHigh_spec a
  have hhalfVal : ((a.val / 2 : Nat) : Fp).val = a.val / 2 :=
    Residue.val_natCast_of_le_val (Nat.div_le_self _ _)
  have hdegenerate : decide (((a.val / 2 : Nat) : Fp) = 0) = decide (a.val / 2 = 0) := by
    rw [decide_eq_decide]
    refine ⟨fun h => ?_, fun h => by rw [h, Nat.cast_zero]⟩
    rw [← hhalfVal, h, Residue.val_zero]
  obtain ⟨hne_zero, -⟩ := DoubleAndAdd.doubleAndAdd?_eq_some hA hshort hne
  have hdifference : (2 * scaleHigh a + 1 + 2 ^ 255) • A + -A ≠ 0 := by
    have hsplit : 2 * scaleHigh a + 1 + 2 ^ 255 = 2 * scaleHigh a + 2 ^ 255 + 1 := by omega
    rwa [hsplit, succ_nsmul, add_neg_cancel_right, ne_eq, Pallas.nsmul_eq_zero_iff hA]
  have hscope : Proves s (scaleVar P x : Builder Pasta.p σ (PointVar Pasta.p))
      fun t R => R.Below t.nextVar := by
    unfold scaleVar
    refine (ScalarVar.ofExprParts_proves hx).bind ?_
    rintro t₁ ⟨parity, half, u⟩ h₁ ⟨hparity, hhalf, hlo, hhigh⟩
    refine (Expr.isEqual_proves hhalf .zero).bind fun t₂ degenerate h₂ hdeg => ?_
    rw [hdegenerate] at hdeg
    refine (BoolVar.choose_proves hdeg .zero (hhigh.mono h₂)).bind fun t₃ hi h₃ hhi => ?_
    have hhi' : t₃.Carries hi (scaleHigh a : Fp) := by
      convert hhi using 1
      unfold scaleHigh
      split <;> simp_all
    have h₁₃ := (h₁.trans h₂).trans h₃
    refine (unpackHigh_proves hA (hP.mono h₁₃) le_rfl hshort hne hhi').bind ?_
    rintro t₄ ⟨R, bits⟩ h₄ ⟨hR, hzeros⟩
    refine (assertZeros_proves hzeros).bind fun t₅ _ h₅ _ => ?_
    replace hR := hR.mono h₅
    have h₁₅ := (h₁₃.trans h₄).trans h₅
    refine (addFinite_points_proves hne_zero (neg_ne_zero.mpr hA) hR
      (carries_neg_ofPoint (hP.mono h₁₅)) hdifference).bind fun t₆ R' h₆ hR' => ?_
    have h₂₆ := ((h₃.trans h₄).trans h₅).trans h₆
    refine (BoolVar.select_proves (hlo.mono (h₂.trans h₂₆)) (hR.mono h₆) hR').bind
      fun t₇ S h₇ hS => ?_
    refine (BoolVar.select_proves (hparity.mono ((h₂.trans h₂₆).trans h₇))
      (hP.mono ((h₁₅.trans h₆).trans h₇)) (carries_constant 0)).bind fun t₈ small h₈ hsmall => ?_
    exact (BoolVar.select_proves (hdeg.mono ((h₂₆.trans h₇).trans h₈)) hsmall (hS.mono h₈)).mono
      fun t₉ result _ hresult => below_of_carries hresult
  refine (hscope.of_ensures fun ρ => scaleVar_ensures P x).mono ?_
  rintro t R hst ⟨hbelow, hvalue⟩
  have hlocates : (P.eval t.assignment).Locates A := by
    rw [eval_of_carries (hP.mono hst)]
    exact locates_ofPoint hA
  have heval := hvalue A hlocates
  rw [(hx.mono hst).eval] at heval
  exact carries_of_eval hbelow heval

theorem scale_proves {A : Pallas.Point} (hA : A ≠ 0) (hP : s.Carries P (ofPoint A))
    {x : Expr Pasta.p} {a : Fp} (hx : s.Carries x a) :
    Proves s (scale P x : Builder Pasta.p σ (PointVar Pasta.p)) fun t R =>
      t.Carries R (ofPoint (a.val • A)) := by
  simp only [scale]
  cases hcP : CircuitType.constantValue? (n := Pasta.p) P with
  | none => exact scaleVar_proves hA hP hx
  | some c =>
      cases hcx : x.toConstant? with
      | none => exact scaleVar_proves hA hP hx
      | some k =>
          obtain rfl := eq_of_constantValue? hP hcP
          obtain rfl := hx.eq_of_toConstant? hcx
          have hlt : k.val < Pasta.q := k.isLt.trans (by decide)
          refine .pure ?_
          rw [scaleConstant_eq, Residue.val_ofNat, Nat.mod_eq_of_lt hlt]
          exact carries_constant _

/-! ### Shifted scalars -/

theorem splitHigh_proves {t : ScalarVar} {b : Fp} {count : Nat} (ht : s.Carries t.hi b)
    (hb : b.val < 2 ^ count) :
    Proves s (splitHigh t count :
      Builder Pasta.p σ (BoolVar Pasta.p × BoolVar Pasta.p × Expr Pasta.p)) fun u r =>
        u.Carries r.1 (decide (b.val = degenerateHigh)) ∧
          u.Carries r.2.1 (decide (b.val = degenerateHigh ∨ b.val = degenerateHigh - 1)) ∧
          u.Carries r.2.2 (splitValue b.val : Fp) := by
  obtain ⟨hone, hminusOne⟩ := decide_eq_degenerateHigh b
  unfold splitHigh
  refine (Expr.isEqual_proves ht (.const _)).bind fun t₁ isOne h₁ hisOne => ?_
  rw [hone] at hisOne
  refine (Expr.isEqual_proves (ht.mono h₁) (.const _)).bind fun t₂ isMinusOne h₂ hisMinusOne => ?_
  rw [hminusOne] at hisMinusOne
  replace hisOne := hisOne.mono h₂
  refine (BoolVar.or_proves hisOne hisMinusOne).bind fun t₃ degenerate h₃ hdegenerate => ?_
  rw [← Bool.decide_or] at hdegenerate
  refine .guard (fun hshort => BoolVar.assertFalse_proves ?_) fun t₄ h₄ => ?_
  · have hwidth : Binary.width degenerateHigh = 126 ∧ 2 ^ 125 < degenerateHigh - 1 := by decide
    have hpow : 2 ^ count ≤ 2 ^ 125 := Nat.pow_le_pow_right (by decide) (by omega)
    have hsplit : ¬(b.val = degenerateHigh ∨ b.val = degenerateHigh - 1) := by omega
    rwa [decide_eq_false hsplit] at hdegenerate
  · replace hdegenerate := hdegenerate.mono h₄
    refine (BoolVar.choose_proves hdegenerate .zero
      (ht.mono (((h₁.trans h₂).trans h₃).trans h₄))).bind fun t₅ hi h₅ hhi => .pure ?_
    refine ⟨hisOne.mono ((h₃.trans h₄).trans h₅), hdegenerate.mono h₅, ?_⟩
    convert hhi using 1
    unfold splitValue
    by_cases h : b.val = degenerateHigh ∨ b.val = degenerateHigh - 1
    · simp [h]
    · simp [h, Residue.natCast_val]

theorem splitValue_lt {hi count : Nat} (h : hi < 2 ^ count) : splitValue hi < 2 ^ count := by
  unfold splitValue
  split
  · exact Nat.two_pow_pos count
  · exact h

theorem splitValue_ne {hi : Nat} (h : hi ≠ tripleHigh) :
    splitValue hi ≠ degenerateHigh ∧ splitValue hi ≠ degenerateHigh - 1 ∧
      splitValue hi ≠ tripleHigh := by
  unfold splitValue
  split
  · decide
  · next hne =>
      rw [not_or] at hne
      exact ⟨hne.1, hne.2, h⟩

theorem ofPoint_splitValue {A : Pallas.Point} (hA : A ≠ 0) {hi : Nat} (hlt : hi < 2 ^ 254)
    (hne : hi ≠ tripleHigh) :
    (2 * hi + 1 + 2 ^ 255) • A ≠ 0 ∧
      (if decide (hi = degenerateHigh ∨ hi = degenerateHigh - 1) = true then
        signed (ofPoint A) hi
        else ofPoint ((2 * splitValue hi + 1 + 2 ^ 255) • A)) =
        ofPoint ((2 * hi + 1 + 2 ^ 255) • A) := by
  by_cases hsplit : hi = degenerateHigh ∨ hi = degenerateHigh - 1
  · have hlocates := locates_signed (locates_ofPoint hA) hsplit
    rw [decide_eq_true hsplit, if_pos rfl]
    exact ⟨hlocates.ne_zero, hlocates.eq_ofPoint⟩
  · obtain ⟨hone, hminusOne⟩ := not_or.mp hsplit
    rw [decide_eq_false hsplit, if_neg Bool.false_ne_true, splitValue, if_neg hsplit]
    exact ⟨(DoubleAndAdd.doubleAndAdd?_eq_some hA hlt ⟨hone, hminusOne, hne⟩).1, rfl⟩

theorem scaleShiftedVar_proves {A : Pallas.Point} (hA : A ≠ 0) (hP : s.Carries P (ofPoint A))
    {t : ScalarVar} {v : Bool} {b : Fp} {count : Nat} (hlo : s.Carries t.lo v)
    (hhi : s.Carries t.hi b) (hcount : count ≤ 254) (hb : b.val < 2 ^ count)
    (hne : b.val ≠ tripleHigh) :
    Proves s (scaleShiftedVar P t count : Builder Pasta.p σ (PointVar Pasta.p)) fun u R =>
      u.Carries R (ofPoint ((2 * b.val + v.toNat + 2 ^ 255) • A)) := by
  have hlt : b.val < 2 ^ 254 := hb.trans_le (Nat.pow_le_pow_right (by decide) hcount)
  obtain ⟨hmultiple, hchoice⟩ := ofPoint_splitValue hA hlt hne
  have hscope : Proves s (scaleShiftedVar P t count : Builder Pasta.p σ (PointVar Pasta.p))
      fun u R => R.Below u.nextVar := by
    rw [scaleShiftedVar_eq]
    refine (splitHigh_proves hhi hb).bind ?_
    rintro t₁ ⟨isOne, degenerate, hi⟩ h₁ ⟨hisOne, hdegenerate, hhi⟩
    refine (unpackHigh_proves hA (hP.mono h₁) hcount (splitValue_lt hb) (splitValue_ne hne)
      hhi).bind ?_
    rintro t₂ ⟨R, bits⟩ h₂ ⟨hR, hzeros⟩
    refine (assertZeros_proves hzeros).bind fun t₃ _ h₃ _ => ?_
    have h₁₃ := (h₁.trans h₂).trans h₃
    obtain ⟨hx, hy⟩ := Run.carries_point.mp (hP.mono h₁₃)
    have hsign := ((Run.carries_bool.mp (hisOne.mono (h₂.trans h₃))).smul ((2 : Nat) : Fp)).minus
      .one
    refine (Expr.mul_proves hy hsign).bind fun t₄ y h₄ hy => ?_
    have hsigned : t₄.Carries (⟨P.x, y⟩ : PointVar Pasta.p) (signed (ofPoint A) b.val) := by
      rw [signed]
      exact Run.carries_point.mpr ⟨hx.mono h₄, hy⟩
    refine (BoolVar.select_proves (hdegenerate.mono ((h₂.trans h₃).trans h₄)) hsigned
      (hR.mono (h₃.trans h₄))).bind fun t₅ R₁ h₅ hR₁ => ?_
    rw [hchoice] at hR₁
    have h₁₅ := (h₁₃.trans h₄).trans h₅
    have hflaw := AdditionGate.flaw?_honest (ofPoint ((2 * b.val + 1 + 2 ^ 255) • A))
      (ofPoint (-A)) fun _ hzero => absurd hzero
        ((locates_ofPoint hmultiple).y_ne_zero (Pallas.add_self_ne_zero hmultiple))
    refine (add_proves hR₁ (carries_neg_ofPoint (hP.mono h₁₅)) hflaw).bind ?_
    rintro t₆ ⟨R₂, isInfinity⟩ h₆ ⟨hR₂, hinfinity⟩
    refine (BoolVar.select_proves hinfinity (carries_constant 0) hR₂).bind
      fun t₇ R₃ h₇ hR₃ => ?_
    exact (BoolVar.select_proves (hlo.mono ((h₁₅.trans h₆).trans h₇))
      (hR₁.mono (h₆.trans h₇)) hR₃).mono fun t₈ result _ hresult => below_of_carries hresult
  refine (hscope.of_ensures fun ρ => scaleShiftedVar_ensures P t hcount).mono ?_
  rintro u R hst ⟨hbelow, hvalue⟩
  have hlocates : (P.eval u.assignment).Locates A := by
    rw [eval_of_carries (hP.mono hst)]
    exact locates_ofPoint hA
  have heval := (hvalue A v hlocates (Run.carries_bool.mp (hlo.mono hst)).eval).2
  rw [(hhi.mono hst).eval] at heval
  exact carries_of_eval hbelow heval

theorem scaleShifted_proves {A : Pallas.Point} (hA : A ≠ 0) (hP : s.Carries P (ofPoint A))
    {t : ScalarVar} {v : Bool} {b : Fp} {count : Nat} (hlo : s.Carries t.lo v)
    (hhi : s.Carries t.hi b) (hcount : count ≤ highBits) (hb : b.val < 2 ^ count)
    (hne : b.val ≠ tripleHigh) :
    Proves s (scaleShifted P t count : Builder Pasta.p σ (PointVar Pasta.p)) fun u R =>
      u.Carries R (ofPoint ((2 * b.val + v.toNat + 2 ^ 255) • A)) := by
  simp only [scaleShifted, if_neg (not_lt.mpr hcount)]
  cases hcP : CircuitType.constantValue? (n := Pasta.p) P with
  | none => exact scaleShiftedVar_proves hA hP hlo hhi hcount hb hne
  | some a =>
      cases hct : CircuitType.constantValue? (n := Pasta.p) t with
      | none => exact scaleShiftedVar_proves hA hP hlo hhi hcount hb hne
      | some u =>
          obtain rfl := eq_of_constantValue? hP hcP
          refine .pure ?_
          rw [scaleConstant_eq, nsmul_of_constantValue? (ρ := s.assignment) hct,
            (Run.carries_bool.mp hlo).eval, Residue.val_ofBool, hhi.eval]
          exact carries_constant _

theorem shift_spec (u : Fq) :
    (Residue.ofNat (ScalarVar.shift u).2 : Fp).val = (ScalarVar.shift u).2 ∧
      (ScalarVar.shift u).2 < 2 ^ highBits ∧ (ScalarVar.shift u).2 ≠ tripleHigh ∧
      ∀ A : Pallas.Point,
        (2 * (ScalarVar.shift u).2 + (ScalarVar.shift u).1.toNat + 2 ^ 255) • A = u.val • A := by
  have hrange : (ScalarVar.shift u).2 < 2 ^ 254 ∧ (ScalarVar.shift u).2 ≠ tripleHigh := by
    have hbounds : Pasta.q < 2 ^ 255 ∧ Pasta.q ≤ 2 * tripleHigh := by decide
    have hlt := (u - .twoPow 255).isLt
    simp only [ScalarVar.shift]
    omega
  exact ⟨Residue.val_natCast_of_lt_two_pow hrange.1, hrange.1, hrange.2,
    Pallas.nsmul_eq_of_natCast (ScalarVar.natCast_shift u)⟩

/-- One high part in range makes the unpacked multiple infinity, which the gate rejects. -/
theorem scaleShiftedVar_fails {A : Pallas.Point} (hA : A ≠ 0) (heval : s.evaluates = true)
    (hP : s.Carries P (ofPoint A)) {t : ScalarVar} {b : Fp} {count : Nat}
    (hhi : s.Carries t.hi b) (hb : b.val < 2 ^ count) (htriple : b.val = tripleHigh) :
    Fails s (scaleShiftedVar P t count : Builder Pasta.p σ (PointVar Pasta.p))
      (.violation (.scaling .degenerate)) := by
  have hsplit : splitValue b.val = tripleHigh := by
    rw [htriple]
    decide
  have hval : ((tripleHigh : Nat) : Fp).val = tripleHigh :=
    Residue.val_natCast_of_lt_two_pow (by decide)
  rw [scaleShiftedVar_eq]
  refine .bind (splitHigh_proves hhi hb) ?_
  rintro t₁ ⟨isOne, degenerate, hi⟩ h₁ ⟨-, -, hhi⟩
  rw [hsplit] at hhi
  refine .bind_left (scaleUnpack_fails (h₁.evaluates.trans heval) (hP.mono h₁) hhi ?_ ?_)
  · rw [hval]
    decide
  · rw [hval]
    exact DoubleAndAdd.doubleAndAdd?_tripleHigh hA

end PointVar

end PallasCircuits
