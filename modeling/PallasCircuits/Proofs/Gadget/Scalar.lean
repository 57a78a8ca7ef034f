import PallasCircuits.Proofs.Gadget.LimbsCompleteness
import PallasCircuits.Proofs.Gadget.PointCompleteness

namespace PallasCircuits.ScalarVar

open Builder

variable {σ : Type} {ρ : Nat → Fp}

/-! The shifted form of a scalar given by limbs is unique, and only reduced scalars have one. -/

/-- What stays of `k` when `2 ^ 255` is taken away determines the shifted form. -/
theorem shift_eq {k t : Nat} (ht : t < Pasta.q)
    (h : t + Binary.twoPow 255 % Pasta.q ≡ k [MOD Pasta.q]) :
    shift (k : Fq) = (t.testBit 0, t / 2) := by
  have hpow : ((Binary.twoPow 255 % Pasta.q : Nat) : Fq) = .twoPow 255 :=
    (Residue.natCast_eq_natCast_iff _ _).mpr (Nat.mod_mod _ _)
  have hsum : ((t + Binary.twoPow 255 % Pasta.q : Nat) : Fq) = (k : Fq) :=
    (Residue.natCast_eq_natCast_iff _ _).mpr h
  have hval : ((k : Fq) - .twoPow 255).val = t := by
    rw [← hsum, Nat.cast_add, hpow, add_sub_cancel_right, Residue.val_natCast_of_lt ht]
  unfold shift
  rw [hval]

theorem shift_parts (k : Nat) :
    (2 * (shift (k : Fq)).2 + (shift (k : Fq)).1.toNat : ℤ) = (k - 2 ^ 255) % Pasta.q := by
  have hval : ((((k : Fq) - .twoPow 255).val : Nat) : ℤ) = (k - 2 ^ 255) % Pasta.q := by
    have hle : (Residue.twoPow 255 : Fq).val ≤ Pasta.q := (Residue.twoPow 255 : Fq).isLt.le
    have hpow : (Residue.twoPow 255 : Fq).val = 2 ^ 255 % Pasta.q := rfl
    rw [Residue.val_sub, Int.natCast_mod, Nat.cast_add, Nat.cast_sub hle, hpow,
      Residue.val_natCast, Int.natCast_mod, Int.natCast_mod, Int.sub_emod k, ← add_sub_assoc,
      add_sub_right_comm, Int.add_emod_right]
    norm_num
  have hparity := Nat.toNat_testBit ((k : Fq) - .twoPow 255).val 0
  rw [pow_zero, Nat.div_one] at hparity
  rw [← hval]
  simp only [shift, hparity]
  omega

theorem unshift_shift (u : Fq) : unshift (.ofBool (shift u).1) (.ofNat (shift u).2) = u := by
  rw [unshift_eq, Residue.val_ofBool, (PointVar.shift_spec u).1, natCast_shift]

theorem constantValue?_constant (u : Fq) :
    CircuitType.constantValue? (n := Pasta.p) (constant u) = some u := by
  simp only [CircuitType.constantValue?, CircuitType.toExprs, constant, BoolVar.constant,
    List.mapM_cons, List.mapM_nil, Expr.toConstant?_const, Option.pure_def, Option.bind_eq_bind,
    Option.bind_some]
  exact congrArg some (unshift_shift u)

theorem half_eq {x : Limbs Nat} {bit : Bool} {mid hi : Nat}
    (hlo : x.lo = bit.toNat + 2 * (mid + 2 ^ 64 * hi)) :
    x.toNat.testBit 0 = bit ∧
      x.toNat / 2 = mid + 2 ^ 64 * hi + 2 ^ 87 * x.mid + 2 ^ 175 * x.hi := by
  have hsum : x.toNat =
      bit.toNat + 2 * (mid + 2 ^ 64 * hi + 2 ^ 87 * x.mid + 2 ^ 175 * x.hi) := by
    simp only [Limbs.toNat, Limbs.base_eq, hlo]
    ring
  rw [hsum, Nat.testBit_zero]
  cases bit with
  | false =>
      simp only [Bool.toNat_false, decide_eq_false_iff_not]
      omega
  | true =>
      simp only [Bool.toNat_true, decide_eq_true_iff]
      omega

/-! ### Halving limbs -/

def halveLimbs (x : Limbs (Expr Pasta.p)) : Builder Pasta.p σ ScalarVar := do
  let (lo, mid, hi) : BoolVar Pasta.p × Expr Pasta.p × Expr Pasta.p ← compute do
    let a ← x.lo.value
    let half := a.val / 2
    return (a.val.testBit 0, .ofNat (half % Binary.twoPow 64), .ofNat (half / Binary.twoPow 64))
  mid.assert64
  hi.assertWidth (limbBits - 65)
  let halfLo := mid + (.twoPow 64 : Fp) • hi
  x.lo.assertEqual (lo.expr + ((2 : Nat) : Fp) • halfLo)
  let half ← (halfLo + (.twoPow (limbBits - 1) : Fp) • x.mid
    + (.twoPow (2 * limbBits - 1) : Fp) • x.hi).wire
  return ⟨lo, half⟩

theorem ofLimbsVar_eq (x : Limbs (Expr Pasta.p)) :
    (ofLimbsVar x : Builder Pasta.p σ ScalarVar) = (do
      x.assertLess Pasta.q
      let t ← x.sub (.constant (Binary.twoPow 255 % Pasta.q)) Pasta.q
      t.assertLess Pasta.q
      halveLimbs t) := rfl

theorem halveLimbs_ensures (x : Limbs (Expr Pasta.p)) :
    Ensures ρ (halveLimbs x : Builder Pasta.p σ ScalarVar) fun t =>
      (x.eval ρ).toNat < 2 ^ 255 → t.lo.Means ρ ((x.eval ρ).toNat.testBit 0) ∧
        (t.hi.eval ρ).val = (x.eval ρ).toNat / 2 := by
  unfold halveLimbs
  refine .bind (.compute fun r => CircuitType.check_pair_ensures
    (CircuitType.check_bool_ensures r.1) (CircuitType.check_exprs_ensures r.2)) ?_
  rintro ⟨lo, mid, hi⟩
  apply (Expr.assert64_ensures mid).bind
  intro _
  apply (Expr.assertWidth_ensures hi _).bind
  intro _
  apply (Expr.assertEqual_ensures x.lo _).bind
  intro _
  refine .bind (Expr.wire_ensures _) fun half => .pure ?_
  rintro hhalf hsplit hhi hmid ⟨⟨bit, hbit⟩, -⟩ hlt
  have hlo : (x.eval ρ).lo =
      bit.toNat + 2 * ((mid.eval ρ).val + 2 ^ 64 * (hi.eval ρ).val) := by
    have hcast : x.lo.eval ρ =
        ((bit.toNat + 2 * ((mid.eval ρ).val + 2 ^ 64 * (hi.eval ρ).val) : Nat) : Fp) := by
      rw [hsplit]
      simp only [Expr.eval_plus, Expr.eval_smul, Residue.twoPow_eq, Nat.cast_add, Nat.cast_mul,
        Nat.cast_pow, Nat.cast_ofNat, Residue.natCast_val]
      rw [hbit, Residue.natCast_toNat]
    have hbitLe := bit.toNat_le
    have hhi : (hi.eval ρ).val < 2 ^ 23 := hhi
    simp only [Limbs.eval, Limbs.map]
    rw [hcast]
    exact Residue.val_natCast_of_lt_two_pow (by omega)
  obtain ⟨hparity, hhalfEq⟩ := half_eq hlo
  refine ⟨by rwa [hparity], ?_⟩
  have hcast : half.eval ρ = (((x.eval ρ).toNat / 2 : Nat) : Fp) := by
    have hwidth : limbBits - 1 = 87 ∧ 2 * limbBits - 1 = 175 := by decide
    rw [hhalf, hhalfEq, hwidth.1, hwidth.2]
    simp only [Expr.eval_plus, Expr.eval_smul, Residue.twoPow_eq, Nat.cast_add, Nat.cast_mul,
      Nat.cast_pow, Nat.cast_ofNat, Limbs.eval, Limbs.map, Residue.natCast_val]
  rw [hcast]
  exact Residue.val_natCast_of_lt_two_pow (by omega)

theorem halveLimbs_builds {x : Limbs (Expr Pasta.p)} (hx : 0 < x.lo.occurrences) :
    Builds (halveLimbs x : Builder Pasta.p σ ScalarVar) fun _ => True := by
  unfold halveLimbs
  refine Builds.bind (P := fun _ => True) (.compute fun r _ => ?_) ?_
  · exact (Builds.assert _).bind fun _ _ => CircuitType.check_exprs_builds r.2
  rintro ⟨lo, mid, hi⟩ -
  refine (Expr.assert64_builds mid).bind fun _ _ => ?_
  refine (Expr.assertWidth_builds hi (by decide)).bind fun _ _ => ?_
  refine (Expr.assertEqual_builds_of_pos (Nat.add_pos_left hx _)).bind fun _ _ => ?_
  exact (Expr.wire_builds _).bind fun half _ => .pure trivial

section

variable {s : Run Pasta.p σ} {x : Limbs (Expr Pasta.p)} {k : Nat}

theorem halfParts_spec {l : Limbs Nat} (hlo : l.lo < 2 ^ 88) :
    l.lo / 2 / 2 ^ 64 < 2 ^ 23 ∧ l.lo.testBit 0 = l.toNat.testBit 0 ∧
      (.ofBool (l.lo.testBit 0) + ((2 : Nat) : Fp) *
        (.ofNat (l.lo / 2 % 2 ^ 64) + .twoPow 64 * .ofNat (l.lo / 2 / 2 ^ 64)) : Fp) =
        .ofNat l.lo ∧
      (.ofNat (l.lo / 2 % 2 ^ 64) + .twoPow 64 * .ofNat (l.lo / 2 / 2 ^ 64) +
        .twoPow (limbBits - 1) * .ofNat l.mid + .twoPow (2 * limbBits - 1) * .ofNat l.hi : Fp) =
        .ofNat (l.toNat / 2) := by
  have hhi : l.lo / 2 / 2 ^ 64 < 2 ^ 23 := by omega
  have hsplit : l.lo =
      (l.lo.testBit 0).toNat + 2 * (l.lo / 2 % 2 ^ 64 + 2 ^ 64 * (l.lo / 2 / 2 ^ 64)) := by
    rw [Nat.mod_add_div, Nat.toNat_testBit, pow_zero, Nat.div_one, Nat.mod_add_div]
  obtain ⟨hparity, hhalf⟩ := half_eq hsplit
  refine ⟨hhi, hparity.symm, ?_, ?_⟩
  · have hbit := Residue.natCast_toNat (n := Pasta.p) (l.lo.testBit 0)
    have hcast := congrArg (fun a : Nat => (a : Fp)) hsplit
    simp only [Nat.cast_add, Nat.cast_mul, Nat.cast_pow, Nat.cast_ofNat, hbit] at hcast
    simp only [Residue.ofNat_eq_natCast, Residue.twoPow_eq, Nat.cast_ofNat]
    exact hcast.symm
  · have hwidth : limbBits - 1 = 87 ∧ 2 * limbBits - 1 = 175 := by decide
    rw [hhalf, hwidth.1, hwidth.2]
    simp only [Residue.ofNat_eq_natCast, Residue.twoPow_eq, Nat.cast_add, Nat.cast_mul,
      Nat.cast_pow, Nat.cast_ofNat]

theorem halveLimbs_proves (hx : s.Carries x k) (hk : k < 2 ^ 264) :
    Proves s (halveLimbs x : Builder Pasta.p σ ScalarVar) fun t r =>
      t.Carries r.lo (k.testBit 0) ∧ t.Carries r.hi (Residue.ofNat (k / 2)) := by
  obtain ⟨hxlo, hxmid, hxhi⟩ := Run.carriesAll_limbs.mp hx
  obtain ⟨hloLt, -, -⟩ := Limbs.inRange_ofNat hk
  have htoNat := Limbs.toNat_ofNat k
  generalize Limbs.ofNat k = l at *
  obtain ⟨hhiLt, hparity, hlowest, hwhole⟩ := halfParts_spec hloLt
  rw [htoNat] at hparity hwhole
  have hval : (Residue.ofNat l.lo : Fp).val = l.lo :=
    Residue.val_natCast_of_lt_two_pow (by omega)
  have hread : s.Reads (do
      let a ← x.lo.value
      let half := a.val / 2
      return (a.val.testBit 0, .ofNat (half % Binary.twoPow 64), .ofNat (half / Binary.twoPow 64)) :
      Reading Pasta.p (Bool × Fp × Fp)) _ := .bind (.value hxlo) (.pure _)
  simp only [Limbs.map, hval, Binary.twoPow_eq] at hread hxlo hxmid hxhi
  have hmidLt := Nat.mod_lt (l.lo / 2) (Nat.two_pow_pos 64)
  rw [← hparity]
  unfold halveLimbs
  refine (Proves.compute hread).bind ?_
  rintro t₁ ⟨lo, mid, hi⟩ h₁ hcells
  simp only [Run.carries_pair] at hcells
  obtain ⟨hlo, hmid, hhi⟩ := hcells
  refine (Expr.assert64_proves hmid ?_).bind fun t₂ _ h₂ _ => ?_
  · rwa [Residue.ofNat_eq_natCast, Residue.val_natCast_of_lt_two_pow (by omega)]
  refine (Expr.assertWidth_proves (by decide) (hhi.mono h₂) ?_).bind fun t₃ _ h₃ _ => ?_
  · rwa [Residue.ofNat_eq_natCast, Residue.val_natCast_of_lt_two_pow (by omega)]
  have h₁₃ := h₂.trans h₃
  have h₀₃ := h₁.trans h₁₃
  replace hlo := Run.carries_bool.mp (hlo.mono h₁₃)
  have hhalf := (hmid.mono h₁₃).plus ((hhi.mono h₁₃).smul (.twoPow 64))
  have hsum := hlo.plus (hhalf.smul ((2 : Nat) : Fp))
  rw [hlowest] at hsum
  refine (Expr.assertEqual_proves (hxlo.mono h₀₃) hsum).bind fun t₄ _ h₄ _ => ?_
  have hpacked := (hhalf.plus ((hxmid.mono h₀₃).smul (.twoPow (limbBits - 1)))).plus
    ((hxhi.mono h₀₃).smul (.twoPow (2 * limbBits - 1)))
  rw [hwhole] at hpacked
  exact (Expr.wire_proves (hpacked.mono h₄)).bind fun t₅ half h₅ hhalf =>
    .pure ⟨Run.carries_bool.mpr (hlo.mono (h₄.trans h₅)), hhalf⟩

end

/-! ### Shifting limbs -/

theorem ofLimbsVar_ensures (x : Limbs (Expr Pasta.p)) :
    Ensures ρ (ofLimbsVar x : Builder Pasta.p σ ScalarVar) fun t =>
      (x.eval ρ).InRange → (x.eval ρ).toNat < Pasta.q ∧
        t.lo.Means ρ (shift ((x.eval ρ).toNat : Fq)).1 ∧
        (t.hi.eval ρ).val = (shift ((x.eval ρ).toNat : Fq)).2 := by
  have hq := PastaPrime.lt_two_pow (n := Pasta.q)
  have hconstant : Binary.twoPow 255 % Pasta.q < 2 ^ 264 := by
    have hlt := Nat.mod_lt (Binary.twoPow 255) (show 0 < Pasta.q by decide)
    omega
  rw [ofLimbsVar_eq]
  refine .bind (Limbs.assertLess_ensures x Pasta.q) fun _ => ?_
  refine .bind (Limbs.sub_ensures x _ Pasta.q) fun difference => ?_
  refine .bind (Limbs.assertLess_ensures difference Pasta.q) fun _ => ?_
  refine (halveLimbs_ensures difference).mono ?_
  rintro t hhalves hdifferenceLt hdifference hxLt hx
  rw [Limbs.eval_constant hconstant, Limbs.toNat_ofNat] at hdifference
  obtain ⟨hrange, hmod⟩ := hdifference hx (Limbs.inRange_ofNat hconstant)
  have hlt := hdifferenceLt hrange
  rw [shift_eq hlt hmod]
  exact ⟨hxLt hx, hhalves (hlt.trans hq)⟩

theorem ofLimbsVar_builds {x : Limbs (Expr Pasta.p)}
    (hx : CircuitType.constantValue? (n := Pasta.p) x = none) :
    Builds (ofLimbsVar x : Builder Pasta.p σ ScalarVar) fun _ => True := by
  have hpos : 0 < Pasta.q := by decide
  have hbound : Pasta.q < 2 ^ 264 := by
    have hq := PastaPrime.lt_two_pow (n := Pasta.q)
    omega
  rw [ofLimbsVar_eq]
  refine (Limbs.assertLess_builds hpos hbound.le hx).bind fun _ _ => ?_
  refine (Limbs.sub_builds hbound hx).bind fun difference hdifference => ?_
  have hopen := Limbs.constantValue?_of_pos hdifference
  refine (Limbs.assertLess_builds hpos hbound.le hopen).bind fun _ _ => ?_
  exact halveLimbs_builds hdifference

section

variable {s : Run Pasta.p σ} {x : Limbs (Expr Pasta.p)} {k : Nat}

theorem ofLimbsVar_proves (hx : s.Carries x k) (hk : k < Pasta.q) :
    Proves s (ofLimbsVar x : Builder Pasta.p σ ScalarVar) fun t r =>
      t.Carries r (k : Fq) := by
  have hbound : Pasta.q < 2 ^ 264 := by
    have hq := PastaPrime.lt_two_pow (n := Pasta.q)
    omega
  have hconstant : Binary.twoPow 255 % Pasta.q < Pasta.q := Nat.mod_lt _ (by decide)
  have hlt : (k + (Pasta.q - Binary.twoPow 255 % Pasta.q)) % Pasta.q < Pasta.q :=
    Nat.mod_lt _ (by decide)
  have hshift := shift_eq (k := k) hlt (by
    refine ((Nat.mod_modEq _ _).add_right _).trans ?_
    rw [Nat.add_assoc, Nat.sub_add_cancel hconstant.le, Nat.ModEq, Nat.add_mod_right])
  rw [ofLimbsVar_eq]
  refine (Limbs.assertLess_proves hx hk hbound.le).bind fun t₁ _ h₁ _ => ?_
  refine (Limbs.sub_proves (hx.mono h₁) (Limbs.carries_constant _) hk hconstant hbound).bind
    fun t₂ difference h₂ hdifference => ?_
  refine (Limbs.assertLess_proves hdifference hlt hbound.le).bind fun t₃ _ h₃ _ => ?_
  refine (halveLimbs_proves (hdifference.mono h₃) (hlt.trans hbound)).mono fun t₄ r _ hr => ?_
  rwa [Run.carries_scalar, hshift]

theorem ofLimbsVar_fails (heval : s.evaluates = true) (hx : s.Carries x k)
    (hvar : CircuitType.constantValue? (n := Pasta.p) x = none) (hk : k < 2 ^ 264)
    (hle : Pasta.q ≤ k) :
    Fails s (ofLimbsVar x : Builder Pasta.p σ ScalarVar)
      (.violation (.tooWide (Limbs.ofNat (k + (2 ^ 264 - Pasta.q))).hi limbBits)) := by
  rw [ofLimbsVar_eq]
  exact .bind_left (Limbs.assertLess_fails heval hx hvar hk (by decide) hle)

theorem carries_constant (u : Fq) : s.Carries (constant u) u :=
  Run.carries_scalar.mpr ⟨BoolVar.carries_constant _, .const _⟩

theorem ofLimbs_proves (hx : s.Carries x k) (hk : k < Pasta.q) :
    Proves s (ofLimbs x : Builder Pasta.p σ ScalarVar) fun t r => t.Carries r (k : Fq) := by
  unfold ofLimbs
  split
  · next j hj =>
      have hlt : k < 2 ^ 264 := by
        have hq := PastaPrime.lt_two_pow (n := Pasta.q)
        omega
      obtain rfl := Limbs.eq_of_constantValue? hx hlt hj
      rw [if_pos hk]
      exact .pure (carries_constant _)
  · exact ofLimbsVar_proves hx hk

end

/-! ### Field elements -/

section

variable {s : Run Pasta.p σ} {x : Expr Pasta.p} {a : Fp}

/-- What the shifted form of a field element stands for is not reduced, but twice the order
more than the element. Its high part is in range all the same, and short of the exceptional one
because `p` is less than `q`. -/
theorem unreduced_spec (a : Fp) :
    a.val / 2 + PointVar.degenerateHigh < 2 ^ 254 ∧
      a.val / 2 + PointVar.degenerateHigh ≠ PointVar.tripleHigh ∧
      2 * (a.val / 2 + PointVar.degenerateHigh) + (a.val.testBit 0).toNat + 2 ^ 255 =
        a.val + Pasta.q * 2 := by
  have hlt := a.isLt
  have hq : Pasta.q = 2 ^ 254 + PointVar.degenerateHigh := by decide
  have hsmall : PointVar.degenerateHigh < 2 ^ 126 := by decide
  have hp : Pasta.p < 2 ^ 254 + 2 ^ 126 := by decide
  have hpq : Pasta.p < Pasta.q := by decide
  have htriple : 2 * PointVar.tripleHigh + 1 + 2 ^ 255 = 3 * Pasta.q := by decide
  have hodd := Nat.toNat_testBit a.val 0
  rw [pow_zero, Nat.div_one] at hodd
  refine ⟨by omega, by omega, ?_⟩
  rw [hodd]
  omega

theorem ofExpr_ensures (hx : x.toConstant? = none) :
    Ensures ρ (ofExpr x : Builder Pasta.p σ ScalarVar) fun t =>
      t.lo.Means ρ ((x.eval ρ).val.testBit 0) ∧
        (t.hi.eval ρ).val = (x.eval ρ).val / 2 + PointVar.degenerateHigh := by
  unfold ofExpr
  rw [hx]
  exact (ofExprParts_ensures x).bind fun r => .pure fun hr => hr.2.2

theorem ofExpr_builds (x : Expr Pasta.p) :
    Builds (ofExpr x : Builder Pasta.p σ ScalarVar) fun _ => True := by
  unfold ofExpr
  split
  · exact .pure trivial
  · exact (ofExprParts_builds x).bind fun _ _ => .pure trivial

theorem ofExpr_unshift_proves (hx : s.Carries x a) :
    Proves s (ofExpr x : Builder Pasta.p σ ScalarVar) fun u t =>
      ∃ (v : Bool) (b : Fp), u.Carries t.lo v ∧ u.Carries t.hi b ∧ b.val < 2 ^ highBits ∧
        b.val ≠ PointVar.tripleHigh ∧ unshift (.ofBool v) b = (a.val : Fq) := by
  unfold ofExpr
  split
  · next c hc =>
      obtain rfl := hx.eq_of_toConstant? hc
      obtain ⟨hval, hshort, hne, -⟩ := PointVar.shift_spec (.ofNat c.val)
      exact .pure ⟨_, _, BoolVar.carries_constant _, .const _, by rwa [hval], by rwa [hval],
        unshift_shift (.ofNat c.val)⟩
  · refine (ofExprParts_proves hx).bind ?_
    rintro u ⟨parity, half, t⟩ hsu ⟨-, -, hlo, hhi⟩
    obtain ⟨hshort, hne, hsum⟩ := unreduced_spec a
    have hval : ((a.val / 2 + PointVar.degenerateHigh : Nat) : Fp).val =
        a.val / 2 + PointVar.degenerateHigh := Residue.val_natCast_of_lt_two_pow hshort
    refine .pure ⟨_, _, hlo, hhi, ?_, ?_, ?_⟩
    · rw [hval]
      exact hshort
    · rwa [hval]
    · rw [unshift_eq, hval, Residue.val_ofBool, hsum, Residue.natCast_eq_natCast_iff,
        Nat.add_mul_mod_self_left]

end

/-! ### Multiples -/

section

variable {s : Run Pasta.p σ} {t : ScalarVar} {k : Nat}

/-- Multiplications by `t` go through, and are multiplications by `k`. -/
def ActsAs (t : ScalarVar) (s : Run Pasta.p σ) (k : Nat) : Prop :=
  ∃ (v : Bool) (b : Fp), s.Carries t.lo v ∧ s.Carries t.hi b ∧ b.val < 2 ^ highBits ∧
    b.val ≠ PointVar.tripleHigh ∧
    ∀ A : Pallas.Point, (2 * b.val + v.toNat + 2 ^ 255) • A = k • A

theorem actsAs_of_carries {u : Fq} (ht : s.Carries t u) : t.ActsAs s u.val := by
  obtain ⟨hlo, hhi⟩ := Run.carries_scalar.mp ht
  obtain ⟨hval, hshort, hne, hmultiple⟩ := PointVar.shift_spec u
  exact ⟨_, _, hlo, hhi, by rwa [hval], by rwa [hval], by rwa [hval]⟩

theorem ofExpr_proves {x : Expr Pasta.p} {a : Fp} (hx : s.Carries x a) :
    Proves s (ofExpr x : Builder Pasta.p σ ScalarVar) fun u t => t.ActsAs u a.val := by
  have hpq : Pasta.p < Pasta.q := by decide
  refine (ofExpr_unshift_proves hx).mono ?_
  rintro u t - ⟨v, b, hlo, hhi, hshort, hne, hvalue⟩
  refine ⟨v, b, hlo, hhi, hshort, hne, fun A => ?_⟩
  rw [unshift_eq, Residue.val_ofBool] at hvalue
  rw [Pallas.nsmul_eq_of_natCast hvalue, Residue.val_natCast_of_lt (a.isLt.trans hpq)]

end

end PallasCircuits.ScalarVar

namespace PallasCircuits.PointVar

open Builder Coordinates

variable {σ : Type} {s : Run Pasta.p σ} {P : PointVar Pasta.p} {A : Pallas.Point}

theorem scaleShifted_proves_of_actsAs (hA : A ≠ 0) (hP : s.Carries P (ofPoint A))
    {t : ScalarVar} {k : Nat} (ht : t.ActsAs s k) :
    Proves s (scaleShifted P t highBits : Builder Pasta.p σ (PointVar Pasta.p)) fun u R =>
      u.Carries R (ofPoint (k • A)) := by
  obtain ⟨v, b, hlo, hhi, hshort, hne, hmultiple⟩ := ht
  rw [← hmultiple A]
  exact scaleShifted_proves hA hP hlo hhi le_rfl hshort hne

end PallasCircuits.PointVar
