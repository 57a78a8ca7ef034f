import PallasCircuits.Gadget.Range
import PallasCircuits.Proofs.Gadget.Selection
import PallasCircuits.Proofs.Gadget.Setup

namespace PallasCircuits.Expr

open Builder

variable {n : Nat} [Modulus n] {σ : Type} {ρ : Nat → Residue n}

/-! Range checks bound canonical representatives, and halving splits them. -/

theorem val_lt_of_isShortConstant {x : Expr n} {bits : Nat}
    (hshort : x.isShortConstant bits = true) : (x.eval ρ).val < 2 ^ bits := by
  unfold isShortConstant at hshort
  cases hx : x.toConstant? with
  | none => simp [hx] at hshort
  | some a =>
      rw [hx] at hshort
      rw [eval_of_toConstant? ρ hx]
      exact (Binary.width_le_iff a.val bits).mp (of_decide_eq_true hshort)

theorem assert64_ensures (x : Expr n) :
    Ensures ρ (x.assert64 : Builder n σ Unit) fun _ => (x.eval ρ).val < 2 ^ 64 := by
  unfold assert64
  split
  · next hshort => exact .pure (val_lt_of_isShortConstant hshort)
  · exact (Ensures.assert _).mono fun _ h => (Constraint.holds_range64 ρ x).mp h

variable [PastaPrime n]

theorem assertChunk_ensures (x : Expr n) {bits : Nat} (hbits : bits ≤ 64) :
    Ensures ρ (x.assertChunk bits : Builder n σ Unit) fun _ => (x.eval ρ).val < 2 ^ bits := by
  unfold assertChunk
  apply (assert64_ensures x).bind
  intro _
  split
  · next hlt =>
      apply (assert64_ensures _).mono
      intro _ hshifted hx
      rw [eval_smul, Residue.twoPow_eq] at hshifted
      exact (Residue.val_two_pow_mul_lt_iff hbits hx).mp hshifted
  · next hge =>
      obtain rfl : bits = 64 := by omega
      exact .pure id

theorem assertWidth_ensures (x : Expr n) (bits : Nat) :
    Ensures ρ (x.assertWidth bits : Builder n σ Unit) fun _ => (x.eval ρ).val < 2 ^ bits := by
  unfold assertWidth
  split
  · exact .failSetup _
  · next hle =>
      split
      · next hsmall => exact assertChunk_ensures x hsmall
      · next hlarge =>
          refine .skip (.compute CircuitType.check_exprs_ensures) ?_
          rintro ⟨lo, hi⟩
          apply (assertEqual_ensures x _).bind
          intro _
          apply (assert64_ensures lo).bind
          intro _
          apply (assertChunk_ensures hi (by omega)).mono
          intro _ hhi hlo hx
          rw [eval_plus, eval_smul, Residue.twoPow_eq] at hx
          rw [hx, Residue.val_add_two_pow_mul hlo hhi (by omega)]
          have hlt := Residue.lt_two_pow_of_digits hlo hhi
          rwa [Nat.add_sub_cancel' (by omega)] at hlt

theorem assertAtMostVar_ensures (x : Expr n) {bound : Nat} (hbound : bound < 2 ^ 254) :
    Ensures ρ (x.assertAtMostVar bound : Builder n σ Unit)
      fun _ => (x.eval ρ).val ≤ bound := by
  have hwidth : Binary.width bound ≤ 254 := (Binary.width_le_iff bound 254).mpr hbound
  unfold assertAtMostVar
  refine .skip (.compute CircuitType.check_exprs_ensures) ?_
  rintro ⟨lo, hi⟩
  apply (assertWidth_ensures lo 128).bind
  intro _
  apply (assertWidth_ensures hi _).bind
  intro _
  apply (assertEqual_ensures x _).bind
  intro _
  apply (assertWidth_ensures _ _).bind
  intro _
  apply (isEqual_ensures _ 0).bind
  intro tie
  apply (BoolVar.choose_ensures tie _ 0).bind
  intro gap
  refine (assertWidth_ensures gap 128).mono ?_
  intro _ hloGap hgap htie hhiGap hx hhi hlo
  simp only [eval_minus, eval_const, eval_zero, Residue.ofNat_eq_natCast, Binary.twoPow_eq]
    at hhiGap htie hgap
  have hval : (x.eval ρ).val = (lo.eval ρ).val + 2 ^ 128 * (hi.eval ρ).val := by
    rw [hx, eval_plus, eval_smul, Residue.twoPow_eq]
    exact Residue.val_add_two_pow_mul hlo hhi (by omega)
  have hhiLe : (hi.eval ρ).val ≤ bound / 2 ^ 128 :=
    Residue.val_le_of_val_sub_lt (by omega) hhi hhiGap
  have hdigits := Nat.div_add_mod bound (2 ^ 128)
  rw [hgap _ htie] at hloGap
  by_cases heq : (hi.eval ρ).val = bound / 2 ^ 128
  · have hloLe : (lo.eval ρ).val ≤ bound % 2 ^ 128 := by
      have hzero : ((bound / 2 ^ 128 : Nat) : Residue n) - hi.eval ρ = 0 := by
        rw [← heq, Residue.natCast_val, sub_self]
      rw [decide_eq_true hzero, if_pos rfl] at hloGap
      exact Residue.val_le_of_val_sub_lt (by decide) hlo hloGap
    rw [hval, heq]
    omega
  · have hlt : (hi.eval ρ).val + 1 ≤ bound / 2 ^ 128 := by omega
    have hmul := Nat.mul_le_mul_left (2 ^ 128) hlt
    rw [hval]
    omega

theorem assertAtMost_ensures (x : Expr n) (bound : Nat) :
    Ensures ρ (x.assertAtMost bound : Builder n σ Unit) fun _ => (x.eval ρ).val ≤ bound := by
  rcases Nat.lt_or_ge bound (2 ^ 254) with hbound | hbound
  · cases hx : x.toConstant? with
    | some a =>
        rw [assertAtMost_of_constant hbound hx]
        split
        · next hle => exact .pure (by rwa [eval_of_toConstant? ρ hx])
        · exact .failSetup _
    | none =>
        rw [assertAtMost_of_var hbound hx]
        exact assertAtMostVar_ensures x hbound
  · rw [assertAtMost_of_le x hbound]
    exact .failSetup _

theorem halveVar_ensures (x : Expr n) :
    Ensures ρ (x.halveVar : Builder n σ (BoolVar n × Expr n)) fun r =>
      r.1.Means ρ ((x.eval ρ).val.testBit 0) ∧ (r.2.eval ρ).val = (x.eval ρ).val / 2 := by
  unfold halveVar
  refine .bind (.compute fun r => CircuitType.check_pair_ensures
    (CircuitType.check_bool_ensures r.1) (CircuitType.check_expr_ensures r.2)) ?_
  rintro ⟨parity, half⟩
  apply (assertEqual_ensures x _).bind
  intro _
  apply (assertAtMost_ensures half _).bind
  intro _
  apply (isEqual_ensures half _).bind
  intro extreme
  refine .bind (.assert _) fun _ => .pure ?_
  rintro hproduct hextreme hmost hx ⟨⟨b, hb⟩, -⟩
  have hval : (x.eval ρ).val = b.toNat + 2 * (half.eval ρ).val := by
    rw [eval_plus, eval_smul, hb] at hx
    rw [Constraint.holds_product, hb, hextreme, eval_const, eval_zero] at hproduct
    exact Residue.val_eq_of_parts hx hmost hproduct
  have hlt := b.toNat_lt
  have hmod : (x.eval ρ).val % 2 = b.toNat := by omega
  have hdiv : (half.eval ρ).val = (x.eval ρ).val / 2 := by omega
  refine ⟨?_, hdiv⟩
  have hbit : (x.eval ρ).val.testBit 0 = b := by
    rw [Nat.testBit_zero, hmod]
    cases b <;> rfl
  rwa [hbit]

theorem halve_ensures (x : Expr n) :
    Ensures ρ (x.halve : Builder n σ (BoolVar n × Expr n)) fun r =>
      r.1.Means ρ ((x.eval ρ).val.testBit 0) ∧ (r.2.eval ρ).val = (x.eval ρ).val / 2 := by
  unfold halve
  cases hx : x.toConstant? with
  | some a =>
      rw [eval_of_toConstant? ρ hx]
      refine .pure ⟨BoolVar.means_constant _, ?_⟩
      have hlt : a.val / 2 < n := (Nat.div_le_self _ _).trans_lt a.isLt
      exact Nat.mod_eq_of_lt hlt
  | none => exact halveVar_ensures x

end PallasCircuits.Expr
