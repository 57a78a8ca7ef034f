import PallasCircuits.Proofs.Accepts
import PallasCircuits.Proofs.Eager
import PallasCircuits.Proofs.Gadget.Completeness
import PallasCircuits.Proofs.Gadget.Composed
import PallasCircuits.Proofs.HonestScaling

namespace PallasCircuits

open Builder

variable {n : Nat} [Modulus n] {σ : Type}

/-! Which field elements the range checks let through, and what is left of one that is halved. -/

namespace Expr

variable {x y : Expr n} {a : Residue n}

theorem value_bind_of_toConstant? {β : Type} (lookup : Nat → Option (Residue n))
    (hx : x.toConstant? = some a) (f : Residue n → Reading n β) :
    (x.value >>= f) lookup = f a lookup := by
  change (x.eval? lookup).bind (fun a => f a lookup) = _
  rw [eval?_of_toConstant? lookup hx, Option.bind_some]

theorem assertEqual_of_toConstant? (hx : x.toConstant? = some a) (hy : y.toConstant? = some a) :
    (x.assertEqual y : Builder n σ Unit) = pure () := by
  simp only [assertEqual, hx, hy, if_pos]

theorem isShortConstant_of_toConstant? (hx : x.toConstant? = some a) (bits : Nat) :
    x.isShortConstant bits = decide (a.val < 2 ^ bits) := by
  rw [isShortConstant, hx, decide_eq_decide]
  exact Binary.width_le_iff a.val bits

end Expr

/-! ### Eager runs -/

namespace Builder

variable {s : Run n σ}

theorem compute_digits_of_eager (hs : s.eager = true) (j : Nat) {a : Residue n}
    {value : Reading n (Residue n × Residue n)}
    (hvalue : value s.lookup = some (.ofNat (a.val % 2 ^ j), .ofNat (a.val / 2 ^ j))) :
    ∃ lo hi : Expr n, (compute value : Builder n σ (Expr n × Expr n)) s = .ok (lo, hi) s ∧
      lo.toConstant? = some ((a.val % 2 ^ j : Nat) : Residue n) ∧
      hi.toConstant? = some ((a.val / 2 ^ j : Nat) : Residue n) ∧
      (lo + (.twoPow j : Residue n) • hi).toConstant? = some a := by
  have hread : (reading value : Builder n σ (Residue n × Residue n)) s = .ok _ s :=
    reading_eq_ok.mpr ⟨hvalue, rfl⟩
  refine ⟨_, _, (introduce_of_eager hs).trans (bind_of_ok hread), Expr.toConstant?_const _,
    Expr.toConstant?_const _, ?_⟩
  rw [Expr.toConstant?_plus (Expr.toConstant?_const _)
    (Expr.toConstant?_smul _ (Expr.toConstant?_const _))]
  exact congrArg some (Residue.natCast_mod_add_mul_div a (2 ^ j))

end Builder

namespace Expr

variable {start : Run n σ} {x : Expr n} {a : Residue n} {bits : Nat}

section

variable (heager : start.eager = true) (hvalues : start.hasValues = true)
  (hx : x.toConstant? = some a)

include heager hvalues hx

theorem assert64_tests : Tests start x.assert64 (a.val < 2 ^ 64) where
  passes ha := by
    rw [assert64, isShortConstant_of_toConstant? hx, decide_eq_true ha, if_pos rfl]
    rfl
  rejects ha := by
    have hwidth : ¬Binary.width a.val ≤ 64 := by rwa [Binary.width_le_iff]
    refine ⟨.tooWide a.val 64, ?_⟩
    rw [assert64, isShortConstant_of_toConstant? hx, decide_eq_false ha,
      if_neg Bool.false_ne_true, assert_of_eager heager hvalues, check_eq_error]
    simp [Constraint.check, Constraint.read, eval?_of_toConstant? _ hx, Constraint.checkWidth,
      Constraint.ensure, hwidth]

variable [PastaPrime n]

theorem assertChunk_tests (hbits : bits ≤ 64) :
    Tests start (x.assertChunk bits) (a.val < 2 ^ bits) := by
  have hfirst : Tests start x.assert64 (a.val < 2 ^ 64) := assert64_tests heager hvalues hx
  unfold assertChunk
  by_cases hshort : bits < 64
  · simp only [if_pos hshort]
    have hscaled := toConstant?_smul (.twoPow (64 - bits)) hx
    refine (hfirst.bind fun _ => assert64_tests heager hvalues hscaled).iff ?_
    rw [Residue.twoPow_eq]
    constructor
    · rintro ⟨ha, hshifted⟩
      exact (Residue.val_two_pow_mul_lt_iff hbits ha).mp hshifted
    · intro ha
      have hle : 2 ^ bits ≤ 2 ^ 64 := Nat.pow_le_pow_right (by decide) hbits
      have hwide := ha.trans_le hle
      exact ⟨hwide, (Residue.val_two_pow_mul_lt_iff hbits hwide).mpr ha⟩
  · obtain rfl : bits = 64 := by omega
    exact hfirst.of_eq (by simp)

theorem assertWidth_tests (hbits : bits ≤ 128) :
    Tests start (x.assertWidth bits) (a.val < 2 ^ bits) := by
  unfold assertWidth
  rw [if_neg (by omega)]
  by_cases hsmall : bits ≤ 64
  · rw [if_pos hsmall]
    exact assertChunk_tests heager hvalues hx hsmall
  · rw [if_neg hsmall]
    have hread : (do
        let a ← x.value
        return (.ofNat (a.val % Binary.twoPow 64), .ofNat (a.val / Binary.twoPow 64)) :
        Reading n (Residue n × Residue n)) start.lookup = _ :=
      value_bind_of_toConstant? start.lookup hx _
    obtain ⟨lo, hi, hrun, hlo, hhi, hsum⟩ := compute_digits_of_eager (σ := σ) heager 64 hread
    refine Tests.of_eq ?_ (bind_of_ok hrun)
    simp only [assertEqual_of_toConstant? hx hsum, pure_bind]
    refine ((assert64_tests heager hvalues hlo).bind fun _ =>
      assertChunk_tests heager hvalues hhi (by omega)).iff ?_
    rw [Residue.val_natCast_of_le_val (Nat.mod_le _ _),
      Residue.val_natCast_of_le_val (Nat.div_le_self _ _),
      and_iff_right (Nat.mod_lt _ (Nat.two_pow_pos 64)), Nat.div_lt_iff_lt_mul (Nat.two_pow_pos 64),
      ← pow_add, Nat.sub_add_cancel (by omega)]

end

/-! ### Widths -/

variable [PastaPrime n] {k : Nat}

theorem assertWidth_accepts (hbits : bits ≤ 128) (hx : x.Below k) :
    Accepts k (x.assertWidth bits : Builder n σ Unit) (fun _ => True)
      fun ρ => (x.eval ρ).val < 2 ^ bits where
  local_given := local_true k
  local_accepted := local_eval hx fun a => a.val < 2 ^ bits
  composed := ⟨_, assertWidth_composed bits hx⟩
  builds := assertWidth_builds x hbits
  sound _ := (assertWidth_ensures x bits).mono fun _ h _ => h
  complete _ hk _ ha := assertWidth_proves hbits (.of_below (hx.mono hk)) ha

/-- A range check for up to 128 bits decides whether a value has no more. In an eager run it does
so for constants. It does not get to wider checks at all. -/
theorem assertWidth_decides :
    (bits ≤ 128 → x.Below start.nextVar →
      Decides start (x.assertWidth bits) (fun _ => True) fun ρ => (x.eval ρ).val < 2 ^ bits) ∧
    (bits ≤ 128 → start.eager = true → start.hasValues = true → ∀ a, x.toConstant? = some a →
      Tests start (x.assertWidth bits) (a.val < 2 ^ bits)) ∧
    (128 < bits →
      x.assertWidth bits start = .error (.setup (.bitLength bits 128)) start) := by
  refine ⟨fun hbits hx => (assertWidth_accepts hbits hx).decides le_rfl,
    fun hbits heager hvalues a ha => assertWidth_tests heager hvalues ha hbits, fun hbits => ?_⟩
  rw [assertWidth, if_pos hbits]
  rfl

theorem assertWidth_decides_seven :
    (∃ u, (.var 0 : Expr Pasta.q).assertWidth 7 (Run.start 1 true () : Run Pasta.q Unit) =
        .ok () u ∧
      (Run.start 1 true ()).Solvable u (fun _ => 127) ∧
      ¬(Run.start 1 true ()).Solvable u fun _ => 128) ∧
    (∃ u, (.var 0 : Expr Pasta.p).assertWidth 7 (.proof [127] () : Run Pasta.p Unit) = .ok () u) ∧
    (∃ violation u, (.var 0 : Expr Pasta.p).assertWidth 7 (.proof [128] () : Run Pasta.p Unit) =
      .error (.violation violation) u) ∧
    (.const 127 : Expr Pasta.p).assertWidth 7 (.direct () : Run Pasta.p Unit) =
      .ok () (.direct ()) ∧
    (.var 0 : Expr Pasta.p).assertWidth 129 (.direct () : Run Pasta.p Unit) =
      .error (.setup (.bitLength 129 128)) (.direct ()) := by
  have hsetup : Decides (Run.start 1 true () : Run Pasta.q Unit)
      ((.var 0 : Expr Pasta.q).assertWidth 7) (fun _ => True) fun ρ => (ρ 0).val < 2 ^ 7 :=
    assertWidth_decides.1 (by decide) (by decide : 0 < 1)
  have hprove : ∀ a : Fp, Decides (.proof [a] () : Run Pasta.p Unit)
      ((.var 0 : Expr Pasta.p).assertWidth 7) (fun _ => True) fun ρ => (ρ 0).val < 2 ^ 7 := fun a =>
    assertWidth_decides.1 (by decide) (by decide : 0 < 1)
  obtain ⟨u, hrun, hsolvable⟩ := hsetup.circuit ⟨⟨rfl, rfl⟩, rfl⟩
  obtain ⟨t, hpass, -⟩ := (hprove 127).passes (Run.proving_proof _ ()) trivial (by decide)
  refine ⟨⟨u, hrun, (hsolvable _ trivial).mpr (by decide), ?_⟩, ⟨t, hpass⟩,
    (hprove 128).rejects (Run.proving_proof _ ()) rfl trivial (by decide),
    (assertWidth_decides.2.1 (by decide) rfl rfl 127 (toConstant?_const _)).passes (by decide),
    assertWidth_decides.2.2 (by decide)⟩
  rw [hsolvable _ trivial]
  decide

/-! ### Bounds -/

theorem assertAtMost_accepts {bound : Nat} (hbound : bound < 2 ^ 254)
    (hvar : x.toConstant? = none) (hx : x.Below k) :
    Accepts k (x.assertAtMost bound : Builder n σ Unit) (fun _ => True)
      fun ρ => (x.eval ρ).val ≤ bound where
  local_given := local_true k
  local_accepted := local_eval hx fun a => a.val ≤ bound
  composed := ⟨_, assertAtMost_composed bound hx⟩
  builds := assertAtMost_builds ((toConstant?_eq_none_iff x).mp hvar) hbound
  sound _ := (assertAtMost_ensures x bound).mono fun _ h _ => h
  complete _ hk _ ha := assertAtMost_proves hbound (.of_below (hx.mono hk)) ha

/-- A comparison decides whether a value is at most the bound, for variables by constraints and
for constants at once. Bounds with as many digits as the modulus are refused. -/
theorem assertAtMost_decides {bound : Nat} :
    (bound < 2 ^ 254 → x.toConstant? = none → x.Below start.nextVar →
      Decides start (x.assertAtMost bound) (fun _ => True) fun ρ => (x.eval ρ).val ≤ bound) ∧
    (bound < 2 ^ 254 → ∀ a, x.toConstant? = some a →
      (a.val ≤ bound → x.assertAtMost bound start = .ok () start) ∧
      (bound < a.val →
        x.assertAtMost bound start = .error (.setup (.notAtMost a.val bound)) start)) ∧
    (2 ^ 254 ≤ bound →
      x.assertAtMost bound start =
        .error (.setup (.bitLength (Binary.width bound) 254)) start) := by
  refine ⟨fun hbound hvar hx => (assertAtMost_accepts hbound hvar hx).decides le_rfl,
    fun hbound a ha => ⟨fun hle => ?_, fun hlt => ?_⟩, fun hbound => ?_⟩
  · rw [assertAtMost_of_constant hbound ha, if_pos hle]
    rfl
  · rw [assertAtMost_of_constant hbound ha, if_neg (not_le.mpr hlt)]
    rfl
  · rw [assertAtMost_of_le x hbound]
    rfl

theorem assertAtMost_decides_thousand :
    (∃ u, (.var 0 : Expr Pasta.q).assertAtMost 1000 (Run.start 1 true () : Run Pasta.q Unit) =
        .ok () u ∧
      (Run.start 1 true ()).Solvable u (fun _ => 1000) ∧
      ¬(Run.start 1 true ()).Solvable u fun _ => 1001) ∧
    (∃ u, (.var 0 : Expr Pasta.p).assertAtMost 1000 (.proof [1000] () : Run Pasta.p Unit) =
      .ok () u) ∧
    (∃ violation u, (.var 0 : Expr Pasta.p).assertAtMost 1000
      (.proof [1001] () : Run Pasta.p Unit) = .error (.violation violation) u) ∧
    (.const 1000 : Expr Pasta.p).assertAtMost 1000 (.proof [1001] () : Run Pasta.p Unit) =
      .ok () (.proof [1001] ()) ∧
    (.const 1001 : Expr Pasta.p).assertAtMost 1000 (.proof [1001] () : Run Pasta.p Unit) =
      .error (.setup (.notAtMost 1001 1000)) (.proof [1001] ()) ∧
    (.var 0 : Expr Pasta.p).assertAtMost Pasta.p (.proof [1001] () : Run Pasta.p Unit) =
      .error (.setup (.bitLength 255 254)) (.proof [1001] ()) := by
  have hsetup : Decides (Run.start 1 true () : Run Pasta.q Unit)
      ((.var 0 : Expr Pasta.q).assertAtMost 1000) (fun _ => True) fun ρ => (ρ 0).val ≤ 1000 :=
    assertAtMost_decides.1 (by decide) (toConstant?_var 0) (by decide : 0 < 1)
  have hprove : ∀ a : Fp, Decides (.proof [a] () : Run Pasta.p Unit)
      ((.var 0 : Expr Pasta.p).assertAtMost 1000) (fun _ => True) fun ρ => (ρ 0).val ≤ 1000 :=
    fun a => assertAtMost_decides.1 (by decide) (toConstant?_var 0) (by decide : 0 < 1)
  obtain ⟨u, hrun, hsolvable⟩ := hsetup.circuit ⟨⟨rfl, rfl⟩, rfl⟩
  obtain ⟨t, hpass, -⟩ := (hprove 1000).passes (Run.proving_proof _ ()) trivial (by decide)
  refine ⟨⟨u, hrun, (hsolvable _ trivial).mpr (by decide), ?_⟩, ⟨t, hpass⟩,
    (hprove 1001).rejects (Run.proving_proof _ ()) rfl trivial (by decide),
    (assertAtMost_decides.2.1 (by decide) 1000 (toConstant?_const _)).1 (by decide),
    (assertAtMost_decides.2.1 (by decide) 1001 (toConstant?_const _)).2 (by decide), ?_⟩
  · rw [hsolvable _ trivial]
    decide
  · have hwidth : Binary.width Pasta.p = 255 := by decide
    rw [assertAtMost_decides.2.2 PastaPrime.two_pow_lt.le, hwidth]

/-! ### Halves -/

omit [PastaPrime n] in
theorem val_ofBool_testBit_zero (j : Nat) :
    (Residue.ofBool (j.testBit 0) : Residue n).val = j % 2 := by
  rw [Residue.val_ofBool, Nat.toNat_testBit, pow_zero, Nat.div_one]

structure Splits (a parity half : Residue n) : Prop where
  parity : parity.val = a.val % 2
  half : half.val = a.val / 2

/-- Halving gives the parity and the half of the canonical representative, and nothing else
satisfies its constraints, although most elements are `parity + 2 · half` in two ways. Honest
provers compute them, whatever the element, and constants are halved outside of the circuit. -/
theorem halve_splits :
    (start.Recording →
      (start.hasValues = false → ∃ r u, x.halve start = .ok r u) ∧
      ∀ r u, x.halve start = .ok r u →
        ∀ ρ : Nat → Residue n, (∀ c ∈ start.recordedSince u, c.Holds ρ) →
          Splits (x.eval ρ) (r.1.expr.eval ρ) (r.2.eval ρ)) ∧
    (start.Proving → ∀ a, start.Carries x a →
      ∃ r u, x.halve start = .ok r u ∧ start.Advances u ∧
        (∀ c ∈ start.recordedSince u, c.Holds u.assignment) ∧
        Splits a (r.1.expr.eval u.assignment) (r.2.eval u.assignment)) ∧
    ∀ a, x.toConstant? = some a →
      ∃ r parity half, x.halve start = .ok r start ∧ r.1.expr.toConstant? = some parity ∧
        r.2.toConstant? = some half ∧ Splits a parity half := by
  refine ⟨fun hstart => ⟨fun hvalues => ?_, fun r u hrun ρ hholds => ?_⟩,
    fun hstart a ha => ?_, fun a ha => ?_⟩
  · obtain ⟨r, u, hrun, -⟩ := halve_builds x start ⟨hstart, hvalues⟩
    exact ⟨r, u, hrun⟩
  · obtain ⟨hparity, hhalf⟩ := (halve_ensures x).of_recordedSince hstart hrun hholds
    refine ⟨?_, hhalf⟩
    rw [hparity, val_ofBool_testBit_zero]
  · obtain ⟨r, u, hrun, hadvances, hparity, hhalf⟩ := halve_proves ha hstart
    refine ⟨r, u, hrun, hadvances, hadvances.holds_recordedSince, ?_, ?_⟩
    · rw [(Run.carries_bool.mp hparity).eval, val_ofBool_testBit_zero]
    · rw [hhalf.eval, Residue.val_natCast_of_le_val (Nat.div_le_self _ _)]
  · refine ⟨(.constant (a.val.testBit 0), .const (.ofNat (a.val / 2))), _, _, ?_,
      toConstant?_const _, toConstant?_const _, val_ofBool_testBit_zero _,
      Residue.val_natCast_of_le_val (Nat.div_le_self _ _)⟩
    rw [halve, ha]
    rfl

theorem halve_splits_greatest :
    (∃ r u, (.var 0 : Expr Pasta.q).halve (Run.start 1 true () : Run Pasta.q Unit) = .ok r u) ∧
    (∃ r u, (.var 0 : Expr Pasta.q).halve (.proof [-1] () : Run Pasta.q Unit) = .ok r u ∧
      Splits (u.assignment 0) (r.1.expr.eval u.assignment) (r.2.eval u.assignment) ∧
      (r.1.expr.eval u.assignment).val = 0 ∧
      (r.2.eval u.assignment).val = (Pasta.q - 1) / 2) ∧
    ∃ r parity half, (.const 5 : Expr Pasta.p).halve (.proof [5] () : Run Pasta.p Unit) =
      .ok r (.proof [5] ()) ∧ r.1.expr.toConstant? = some parity ∧
        r.2.toConstant? = some half ∧ parity.val = 1 ∧ half.val = 2 := by
  have hs : (.proof [-1] () : Run Pasta.q Unit).Proving := Run.proving_proof [-1] ()
  have hx : (.proof [-1] () : Run Pasta.q Unit).Carries (.var 0 : Expr Pasta.q) (-1 : Fq) :=
    hs.carries_var rfl
  obtain ⟨r, u, hrun, -, hholds, hsplits⟩ := halve_splits.2.1 hs (-1) hx
  obtain ⟨r', parity, half, hconstant, hparity, hhalf, hsplits'⟩ :=
    halve_splits.2.2 (5 : Fp) (toConstant?_const 5)
  refine ⟨(halve_splits.1 ⟨rfl, rfl⟩).1 rfl, ⟨r, u, hrun, ?_, ?_, ?_⟩,
    r', parity, half, hconstant, hparity, hhalf, ?_, ?_⟩
  · exact (halve_splits.1 hs.toRecording).2 r u hrun u.assignment hholds
  · exact hsplits.parity.trans (by decide)
  · exact hsplits.half.trans (by decide)
  · exact hsplits'.parity.trans (by decide)
  · exact hsplits'.half.trans (by decide)

end Expr

end PallasCircuits
