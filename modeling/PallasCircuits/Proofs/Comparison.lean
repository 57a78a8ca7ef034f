import PallasCircuits.Proofs.Accepts
import PallasCircuits.Proofs.Gadget.Composed
import PallasCircuits.Proofs.Gadget.LimbsCompleteness
import PallasCircuits.Proofs.ScalarForms

namespace PallasCircuits.Limbs

open Builder
open ScalarVar (limbsRun proving_limbsRun carries_limbsRun)

variable {n : Nat} [Modulus n] {σ : Type} {k bound : Nat} {x : Limbs (Expr n)}

/-! A number in limbs is below a bound just if it stays within three limbs together with what the
bound lacks to `2 ^ 264`. -/

theorem local_eval (hx : x.Below k) (P : Limbs Nat → Prop) :
    Local k fun ρ : Nat → Residue n => P (x.eval ρ) := by
  intro ρ ρ' h hP
  rwa [eval_congr h hx]

theorem assertLess_of_constant {a : Nat} (hpos : 0 < bound) (hbound : bound ≤ 2 ^ 264)
    (ha : CircuitType.constantValue? (n := n) x = some a) :
    (x.assertLess bound : Builder n σ Unit) =
      if a < bound then pure () else failSetup (.notBelow a bound) := by
  rw [assertLess, if_neg (not_refused hpos hbound), ha]

theorem assertLess_of_bound (hbound : bound = 0 ∨ 2 ^ 264 < bound) :
    (x.assertLess bound : Builder n σ Unit) =
      failSetup (.bitLength (Binary.width bound) bits) := by
  rw [← twoPow_bits] at hbound
  rw [assertLess, if_pos hbound]

variable [PastaPrime n]

theorem assertLess_accepts (hpos : 0 < bound) (hbound : bound ≤ 2 ^ 264)
    (hvar : CircuitType.constantValue? (n := n) x = none) (hx : x.Below k) :
    Accepts k (x.assertLess bound : Builder n σ Unit) (fun ρ => (x.eval ρ).InRange)
      fun ρ => (x.eval ρ).toNat < bound where
  local_given := local_eval hx InRange
  local_accepted := local_eval hx (·.toNat < bound)
  composed := ⟨_, assertLess_composed bound hx⟩
  builds := assertLess_builds hpos hbound hvar
  sound _ := assertLess_ensures x bound
  complete _ hk hrange hlt :=
    assertLess_proves (carries_of_inRange (Below.mono hx hk) hrange) hlt hbound

/-- A comparison decides whether limbs in range make up a number below the bound, for variables by
constraints and for constants at once. Zero and bounds that exceed `2 ^ 264` are refused. -/
theorem assertLess_decides {start : Run n σ} :
    (0 < bound → bound ≤ 2 ^ 264 → (∃ limb ∈ x.toList, limb.toConstant? = none) →
      x.Below start.nextVar →
      Decides start (x.assertLess bound) (fun ρ => (x.eval ρ).InRange)
        fun ρ => (x.eval ρ).toNat < bound) ∧
    (0 < bound → bound ≤ 2 ^ 264 → ∀ a, CircuitType.constantValue? (n := n) x = some a →
      (a < bound → x.assertLess bound start = .ok () start) ∧
      (bound ≤ a → x.assertLess bound start = .error (.setup (.notBelow a bound)) start)) ∧
    (bound = 0 ∨ 2 ^ 264 < bound →
      x.assertLess bound start =
        .error (.setup (.bitLength (Binary.width bound) 264)) start) := by
  refine ⟨fun hpos hbound hvar hx => ?_, fun hpos hbound a ha => ⟨fun hlt => ?_, fun hle => ?_⟩,
    fun hbound => ?_⟩
  · exact (assertLess_accepts hpos hbound (constantValue?_eq_none_iff.mpr hvar) hx).decides le_rfl
  · rw [assertLess_of_constant hpos hbound ha, if_pos hlt]
    rfl
  · rw [assertLess_of_constant hpos hbound ha, if_neg (not_lt.mpr hle)]
    rfl
  · rw [assertLess_of_bound hbound]
    rfl

theorem assertLess_decides_limb :
    (∃ u, assertLess ⟨.var 0, .var 1, .var 2⟩ (2 ^ 88)
        (Run.start 3 true () : Run Pasta.q Unit) = .ok () u ∧
      (Run.start 3 true ()).Solvable u (fun i => if i = 0 then 2 ^ 88 - 1 else 0) ∧
      ¬(Run.start 3 true ()).Solvable u fun i => if i = 1 then 1 else 0) ∧
    (∃ u, assertLess ⟨.var 0, .var 1, .var 2⟩ (2 ^ 88) (limbsRun (2 ^ 88 - 1)) = .ok () u) ∧
    (∃ violation u, assertLess ⟨.var 0, .var 1, .var 2⟩ (2 ^ 88) (limbsRun (2 ^ 88)) =
      .error (.violation violation) u) ∧
    assertLess (constant 6) 7 (limbsRun 0) = .ok () (limbsRun 0) ∧
    assertLess (constant 7) 7 (limbsRun 0) = .error (.setup (.notBelow 7 7)) (limbsRun 0) ∧
    assertLess ⟨.var 0, .var 1, .var 2⟩ 0 (limbsRun 0) =
      .error (.setup (.bitLength 0 264)) (limbsRun 0) := by
  have hle : 2 ^ 88 ≤ 2 ^ 264 := by omega
  have hsetup : Decides (Run.start 3 true () : Run Pasta.q Unit)
      (assertLess ⟨.var 0, .var 1, .var 2⟩ (2 ^ 88)) _ _ :=
    assertLess_decides.1 (by decide) hle ⟨_, List.mem_cons_self, Expr.toConstant?_var 0⟩
      ⟨(by decide : 0 < 3), (by decide : 1 < 3), (by decide : 2 < 3)⟩
  have hprove : ∀ k, Decides (limbsRun k) (assertLess ⟨.var 0, .var 1, .var 2⟩ (2 ^ 88)) _ _ :=
    fun k => assertLess_decides.1 (by decide) hle ⟨_, List.mem_cons_self, Expr.toConstant?_var 0⟩
      (below_of_carries (carries_limbsRun k))
  have hvalue : ∀ k < 2 ^ 264,
      eval (limbsRun k).assignment (⟨.var 0, .var 1, .var 2⟩ : Limbs (Expr Pasta.p)) = ofNat k :=
    fun k hk => eval_of_carries (carries_limbsRun k) (by omega)
  obtain ⟨u, hrun, hsolvable⟩ := hsetup.circuit ⟨⟨rfl, rfl⟩, rfl⟩
  obtain ⟨t, hpass, -⟩ := (hprove (2 ^ 88 - 1)).passes (proving_limbsRun _)
    (by simpa only [hvalue (2 ^ 88 - 1) (by omega)] using inRange_ofNat (by omega))
    (by rw [hvalue (2 ^ 88 - 1) (by omega), toNat_ofNat]; decide)
  refine ⟨⟨u, hrun, (hsolvable _ ?_).mpr ?_, ?_⟩, ⟨t, hpass⟩,
    (hprove (2 ^ 88)).rejects (proving_limbsRun _) rfl ?_ ?_,
    (assertLess_decides.2.1 (by decide) (by omega) 6 (constantValue?_constant (by omega))).1
      (by decide),
    (assertLess_decides.2.1 (by decide) (by omega) 7 (constantValue?_constant (by omega))).2
      (by decide),
    assertLess_decides.2.2 (.inl rfl)⟩
  · exact ⟨by decide, by decide, by decide⟩
  · decide
  · rw [hsolvable _ ⟨by decide, by decide, by decide⟩]
    decide
  · rw [hvalue (2 ^ 88) (by omega)]
    exact inRange_ofNat (by omega)
  · rw [hvalue (2 ^ 88) (by omega), toNat_ofNat]
    decide

end PallasCircuits.Limbs
