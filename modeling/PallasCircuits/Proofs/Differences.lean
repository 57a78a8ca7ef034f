import PallasCircuits.Proofs.Accepts
import PallasCircuits.Proofs.Gadget.Composed
import PallasCircuits.Proofs.Gadget.LimbsCompleteness
import PallasCircuits.Proofs.HonestScaling

namespace PallasCircuits.Limbs

open Builder

variable {n : Nat} [Modulus n] {σ : Type} {k : Nat} {a b : Limbs (Expr n)}

/-! A difference in limbs is one of integers, up to the modulus that is added for a borrow. -/

variable [PastaPrime n] {start : Run n σ} {modulus : Nat}

/-! ### Constants -/

theorem modEq_sub_constants (hpos : 0 < modulus) (i j : Nat) :
    (((i + modulus - j % modulus) % modulus : Nat) : ℤ) ≡ i - j [ZMOD modulus] := by
  have hlt := Nat.mod_lt j hpos
  have hj : ((j % modulus : Nat) : ℤ) ≡ j [ZMOD modulus] := by
    rw [Int.natCast_mod]
    exact Int.mod_modEq _ _
  rw [Int.natCast_mod, Int.ofNat_sub (by omega), Nat.cast_add]
  calc ((i : ℤ) + modulus - (j % modulus : Nat)) % modulus
      ≡ (i : ℤ) + modulus - (j % modulus : Nat) [ZMOD modulus] := Int.mod_modEq _ _
    _ ≡ (i : ℤ) + modulus - j [ZMOD modulus] := hj.sub_left _
    _ ≡ i - j [ZMOD modulus] := by
      rw [add_sub_right_comm]
      exact Int.add_modEq_right

/-! ### Variables -/

omit [Modulus n] [PastaPrime n] in
theorem differenceValue_of_le {i j : Nat} (h : j ≤ i) :
    (differenceValue i j modulus : ℤ) = i - j := by
  rw [differenceValue, if_neg (not_lt.mpr h), Int.ofNat_sub h]

omit [Modulus n] [PastaPrime n] in
theorem differenceValue_of_lt {i j : Nat} (h : i < j) (hle : j ≤ i + modulus) :
    (differenceValue i j modulus : ℤ) = i - j + modulus := by
  rw [differenceValue, if_pos h, Int.ofNat_sub hle]
  omega

omit [Modulus n] [PastaPrime n] in
theorem differenceValue_of_reduced {i j : Nat} (hi : i < modulus) (hj : j < modulus) :
    (differenceValue i j modulus : ℤ) = (i - j) % modulus := by
  by_cases h : j ≤ i
  · rw [differenceValue_of_le h, Int.emod_eq_of_lt (by omega) (by omega)]
  · rw [differenceValue_of_lt (by omega) (by omega), ← Int.add_emod_right,
      Int.emod_eq_of_lt (by omega) (by omega)]

theorem subVar_accepts (hmodulus : modulus < 2 ^ 264) (ha : a.Below k) (hb : b.Below k) :
    Accepts k (subVar a b modulus : Builder n σ (Limbs (Expr n)))
      (fun ρ => (a.eval ρ).InRange ∧ (b.eval ρ).InRange)
      fun ρ => (b.eval ρ).toNat ≤ (a.eval ρ).toNat + modulus where
  local_given _ _ h hgiven := by simpa only [eval_congr h ha, eval_congr h hb] using hgiven
  local_accepted _ _ h hle := by simpa only [eval_congr h ha, eval_congr h hb] using hle
  composed := ⟨_, subVar_composed modulus ha hb⟩
  builds := (subVar_builds a b modulus).mono fun _ _ => trivial
  sound ρ := by
    refine (subVar_ensures a b hmodulus).mono fun r h hgiven => ?_
    obtain ⟨-, borrow, hsum⟩ := h hgiven.1 hgiven.2
    cases borrow with
    | false =>
        rw [Bool.toNat_false, Nat.mul_zero] at hsum
        omega
    | true =>
        rw [Bool.toNat_true, Nat.mul_one] at hsum
        omega
  complete s hk hgiven hle := by
    have hi := carries_of_inRange (Below.mono ha hk) hgiven.1
    have hj := carries_of_inRange (Below.mono hb hk) hgiven.2
    exact (subVar_proves hi hj hgiven.1.toNat_lt hgiven.2.toNat_lt hmodulus hle).mono
      fun _ _ _ _ => trivial

/-- Subtraction holds over the integers. The constraints only admit limbs in range that make up
the difference or, for a borrow, the difference and the modulus. Honest provers compute the first
if there is no borrow, so the reduced difference of reduced numbers, and are stuck just when the
modulus does not make up for the borrow. Constants are subtracted modulo `modulus`. -/
theorem sub_eq_difference (hpos : 0 < modulus) (hmodulus : modulus < 2 ^ 264) :
    (CircuitType.constantValue? (n := n) a = none ∨
        CircuitType.constantValue? (n := n) b = none →
      (start.SettingUp → ∃ r u, sub a b modulus start = .ok r u) ∧
      (start.Recording → ∀ r u, sub a b modulus start = .ok r u →
        ∀ ρ : Nat → Residue n, (∀ c ∈ start.recordedSince u, c.Holds ρ) →
          (a.eval ρ).InRange → (b.eval ρ).InRange →
            (r.eval ρ).InRange ∧
            (((r.eval ρ).toNat : ℤ) = (a.eval ρ).toNat - (b.eval ρ).toNat ∨
              ((r.eval ρ).toNat : ℤ) = (a.eval ρ).toNat - (b.eval ρ).toNat + modulus)) ∧
      (start.Proving → ∀ i < 2 ^ 264, ∀ j < 2 ^ 264, start.Carries a i → start.Carries b j →
        (j ≤ i + modulus →
          ∃ r u d, sub a b modulus start = .ok r u ∧ start.Advances u ∧ u.Carries r d ∧
            (j ≤ i → (d : ℤ) = i - j) ∧ (i < j → (d : ℤ) = i - j + modulus) ∧
            (i < modulus → j < modulus → (d : ℤ) = (i - j) % modulus)) ∧
        (i + modulus < j → start.evaluates = true →
          ∃ violation u, sub a b modulus start = .error (.violation violation) u))) ∧
    ∀ i j, CircuitType.constantValue? (n := n) a = some i →
      CircuitType.constantValue? (n := n) b = some j →
        ∃ r d, sub a b modulus start = .ok r start ∧
          CircuitType.constantValue? (n := n) r = some d ∧ d < modulus ∧
          (d : ℤ) ≡ i - j [ZMOD modulus] := by
  refine ⟨fun hvar => ?_, fun i j ha hb => ?_⟩
  · simp only [sub_of_var hmodulus hvar]
    refine ⟨fun hstart => ?_, fun hstart r u hrun ρ hholds ha hb => ?_,
      fun hstart i hi j hj ha hb => ⟨fun hle => ?_, fun hlt heval => ?_⟩⟩
    · obtain ⟨r, u, hrun, -⟩ := subVar_builds a b modulus start hstart
      exact ⟨r, u, hrun⟩
    · obtain ⟨hrange, borrow, hsum⟩ :=
        (subVar_ensures a b hmodulus).of_recordedSince hstart hrun hholds ha hb
      refine ⟨hrange, ?_⟩
      cases borrow with
      | false =>
          rw [Bool.toNat_false, Nat.mul_zero] at hsum
          exact .inl (by omega)
      | true =>
          rw [Bool.toNat_true, Nat.mul_one] at hsum
          exact .inr (by omega)
    · obtain ⟨r, u, hrun, hadvances, hr⟩ := subVar_proves ha hb hi hj hmodulus hle hstart
      exact ⟨r, u, _, hrun, hadvances, hr, differenceValue_of_le,
        fun hlt => differenceValue_of_lt hlt hle, differenceValue_of_reduced⟩
    · have haval := eval_of_carries ha (by omega)
      have hbval := eval_of_carries hb (by omega)
      have haccepts := subVar_accepts (σ := σ) hmodulus (below_of_carries ha) (below_of_carries hb)
      refine haccepts.violation_of_not hstart le_rfl heval ?_ ?_
      · rw [haval, hbval]
        exact ⟨inRange_ofNat hi, inRange_ofNat hj⟩
      · rw [haval, hbval, toNat_ofNat, toNat_ofNat]
        exact not_le.mpr hlt
  · have hlt : (i + modulus - j % modulus) % modulus < modulus := Nat.mod_lt _ hpos
    rw [sub_of_constants hpos hmodulus ha hb]
    exact ⟨_, _, rfl, constantValue?_constant (hlt.trans hmodulus), hlt,
      modEq_sub_constants hpos i j⟩

def pairRun (i j : Nat) : Run Pasta.q Unit :=
  .proof (CircuitType.encode (Limbs (Expr Pasta.q)) i ++
    CircuitType.encode (Limbs (Expr Pasta.q)) j) ()

theorem proving_pairRun (i j : Nat) : (pairRun i j).Proving :=
  Run.proving_proof _ ()

theorem carries_pairRun (i j : Nat) :
    (pairRun i j).Carries (⟨.var 0, .var 1, .var 2⟩ : Limbs (Expr Pasta.q)) i ∧
      (pairRun i j).Carries (⟨.var 3, .var 4, .var 5⟩ : Limbs (Expr Pasta.q)) j := by
  have hs := proving_pairRun i j
  exact ⟨Run.carriesAll_limbs.mpr ⟨hs.carries_var rfl, hs.carries_var rfl, hs.carries_var rfl⟩,
    Run.carriesAll_limbs.mpr ⟨hs.carries_var rfl, hs.carries_var rfl, hs.carries_var rfl⟩⟩

theorem sub_eq_difference_seven :
    (∃ r u, sub ⟨.var 0, .var 1, .var 2⟩ ⟨.var 3, .var 4, .var 5⟩ 7
      (Run.start 6 true () : Run Pasta.p Unit) = .ok r u) ∧
    (∃ r u, sub ⟨.var 0, .var 1, .var 2⟩ ⟨.var 3, .var 4, .var 5⟩ 7 (pairRun 3 5) = .ok r u ∧
      u.Carries r 5 ∧ (r.eval u.assignment).InRange ∧
      (((r.eval u.assignment).toNat : ℤ) = 3 - 5 ∨
        ((r.eval u.assignment).toNat : ℤ) = 3 - 5 + 7)) ∧
    (∃ violation u, sub ⟨.var 0, .var 1, .var 2⟩ ⟨.var 3, .var 4, .var 5⟩ 7 (pairRun 3 11) =
      .error (.violation violation) u) ∧
    ∃ r, sub (constant 3) (constant 12) 7 (pairRun 3 5) = .ok r (pairRun 3 5) ∧
      CircuitType.constantValue? (n := Pasta.q) r = some 5 := by
  have hseven : 7 < 2 ^ 264 := by omega
  have hp : CircuitType.constantValue? (n := Pasta.p)
      (⟨.var 0, .var 1, .var 2⟩ : Limbs (Expr Pasta.p)) = none := rfl
  have hq : CircuitType.constantValue? (n := Pasta.q)
      (⟨.var 0, .var 1, .var 2⟩ : Limbs (Expr Pasta.q)) = none := rfl
  obtain ⟨ha, hb⟩ := carries_pairRun 3 5
  obtain ⟨ha', hb'⟩ := carries_pairRun 3 11
  have hs := proving_pairRun 3 5
  obtain ⟨r, u, d, hrun, hadvances, hr, -, hborrow, -⟩ :=
    (((sub_eq_difference (by decide) hseven).1 (.inl hq)).2.2 hs 3 (by omega) 5 (by omega) ha
      hb).1 (by decide)
  obtain rfl : d = 5 := by
    have hd := hborrow (by decide)
    omega
  have haval := eval_of_carries (ha.mono hadvances) (by omega)
  have hbval := eval_of_carries (hb.mono hadvances) (by omega)
  have hsound := ((sub_eq_difference (by decide) hseven).1 (.inl hq)).2.1 hs.toRecording r u hrun
    u.assignment hadvances.holds_recordedSince
  rw [haval, hbval, toNat_ofNat, toNat_ofNat] at hsound
  obtain ⟨r', e, hconstant, hvalue, hlt, hmod⟩ : ∃ r d,
      sub (constant 3) (constant 12) 7 (pairRun 3 5) = .ok r (pairRun 3 5) ∧
        CircuitType.constantValue? (n := Pasta.q) r = some d ∧ d < 7 ∧ (d : ℤ) ≡ 3 - 12 [ZMOD 7] :=
    (sub_eq_difference (by decide) hseven).2 3 12 (constantValue?_constant (by omega))
      (constantValue?_constant (by omega))
  obtain rfl : e = 5 := by
    rw [Int.modEq_iff_dvd] at hmod
    omega
  exact ⟨((sub_eq_difference (by decide) hseven).1 (.inl hp)).1 ⟨⟨rfl, rfl⟩, rfl⟩,
    ⟨r, u, hrun, hr, hsound (inRange_ofNat (by omega)) (inRange_ofNat (by omega))⟩,
    (((sub_eq_difference (by decide) hseven).1 (.inl hq)).2.2 (proving_pairRun 3 11) 3 (by omega)
      11 (by omega) ha' hb').2 (by decide) rfl, r', hconstant, hvalue⟩

end PallasCircuits.Limbs
