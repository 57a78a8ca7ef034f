import PallasCircuits.Proofs.Gadget.Completeness
import PallasCircuits.Proofs.Gadget.Limbs

namespace PallasCircuits

open Builder

variable {n : Nat} [Modulus n] {σ : Type} {s : Run n σ}

/-! Honest runs of the gadgets on limbs compute differences, and tell which numbers are below
a bound. -/

namespace Limbs

/-! ### Honest carries -/

theorem Normalizes.of_total {digits : Limbs ℤ} {result : Limbs Nat}
    (h : digits.total = result.toNat) :
    Normalizes digits ((digits.lo - result.lo) / base)
      ((digits.mid + (digits.lo - result.lo) / base - result.mid) / base) result := by
  simp only [total, toNat, base_eq] at h
  push_cast at h
  have hbase : (base : ℤ) = 2 ^ 88 := by
    rw [base_eq]
    norm_num
  constructor <;> rw [hbase] <;> omega

/-- Digits that are negative, or up to twice too large, take small carries. -/
theorem Normalizes.abs_carry_le {digits : Limbs ℤ} {carryLo carryMid : ℤ} {result : Limbs Nat}
    (h : Normalizes digits carryLo carryMid result) (hresult : result.InRange)
    (hlo : -2 ^ 88 < digits.lo ∧ digits.lo ≤ 2 ^ 89 - 2)
    (hmid : -2 ^ 88 < digits.mid ∧ digits.mid ≤ 2 ^ 89 - 2) :
    |carryLo| ≤ 1 ∧ |carryMid| ≤ 1 := by
  obtain ⟨hrlo, hrmid, -⟩ := hresult
  obtain ⟨hnlo, hnmid, -⟩ := h
  rw [abs_le, abs_le]
  omega

def differenceValue (j k modulus : Nat) : Nat :=
  if j < k then j + modulus - k else j - k

theorem result_difference (a b : Limbs Nat) (modulus : Nat) :
    (difference a b modulus).result = ofNat (differenceValue a.toNat b.toNat modulus) := by
  simp only [difference, differenceValue, decide_eq_true_iff]

theorem differenceDigits_eq (a b : Limbs Nat) (modulus : Nat) (borrow : Bool) :
    differenceDigits a b modulus borrow =
      let m := ofNat (if borrow then modulus else 0)
      ⟨a.lo - b.lo + m.lo, a.mid - b.mid + m.mid, a.hi - b.hi + m.hi⟩ := by
  cases borrow with
  | false => simp [differenceDigits, ofNat]
  | true => simp [differenceDigits]

theorem difference_spec {a b : Limbs Nat} {modulus : Nat} (ha : a.InRange) (hb : b.InRange)
    (hmodulus : modulus < 2 ^ 264) (hle : b.toNat ≤ a.toNat + modulus) :
    (difference a b modulus).result.InRange ∧ |(difference a b modulus).carryLo| ≤ 1 ∧
      |(difference a b modulus).carryMid| ≤ 1 ∧
      Normalizes (differenceDigits a b modulus (difference a b modulus).borrow)
        (difference a b modulus).carryLo (difference a b modulus).carryMid
        (difference a b modulus).result := by
  have hrange : (difference a b modulus).result.InRange := by
    rw [result_difference]
    apply inRange_ofNat
    have hlt := ha.toNat_lt
    unfold differenceValue
    split
    · omega
    · omega
  have htotal : (differenceDigits a b modulus (difference a b modulus).borrow).total =
      (difference a b modulus).result.toNat := by
    rw [total_differenceDigits, result_difference, toNat_ofNat]
    simp only [difference, differenceValue]
    by_cases hlt : a.toNat < b.toNat
    · simp only [hlt, decide_true, Bool.toNat_true, if_true]
      omega
    · simp only [hlt, decide_false, Bool.toNat_false, if_false]
      omega
  have hnormal : Normalizes (differenceDigits a b modulus (difference a b modulus).borrow)
      (difference a b modulus).carryLo (difference a b modulus).carryMid
      (difference a b modulus).result := by
    have hdigits := differenceDigits_eq a b modulus (difference a b modulus).borrow
    convert Normalizes.of_total htotal using 1
    · rw [hdigits]
      rfl
    · rw [hdigits]
      rfl
  obtain ⟨halo, hamid, -⟩ := ha
  obtain ⟨hblo, hbmid, -⟩ := hb
  obtain ⟨hmlo, hmmid, -⟩ := inRange_ofNat hmodulus
  have hcarries := hnormal.abs_carry_le hrange ?_ ?_
  · exact ⟨hrange, hcarries.1, hcarries.2, hnormal⟩
  · cases (difference a b modulus).borrow with
    | false => simp only [differenceDigits, Bool.toNat_false]; omega
    | true => simp only [differenceDigits, Bool.toNat_true]; omega
  · cases (difference a b modulus).borrow with
    | false => simp only [differenceDigits, Bool.toNat_false]; omega
    | true => simp only [differenceDigits, Bool.toNat_true]; omega

theorem sumWithCarries_spec {a b : Limbs Nat} (ha : a.InRange) (hb : b.InRange) :
    (sumWithCarries a b).2.2.lo < 2 ^ 88 ∧ (sumWithCarries a b).2.2.mid < 2 ^ 88 ∧
      Normalizes (sumDigits a b) (sumWithCarries a b).1.toNat (sumWithCarries a b).2.1.toNat
        (sumWithCarries a b).2.2 := by
  obtain ⟨halo, hamid, hahi⟩ := ha
  obtain ⟨hblo, hbmid, hbhi⟩ := hb
  have hcarry : ∀ j : Nat, j < 2 ^ 89 →
      ((j % base : Nat) : ℤ) = j - 2 ^ 88 * (decide (base ≤ j)).toNat := by
    intro j hj
    by_cases hle : base ≤ j
    · rw [decide_eq_true hle, Bool.toNat_true]
      rw [base_eq] at hle ⊢
      omega
    · rw [decide_eq_false hle, Bool.toNat_false]
      rw [base_eq] at hle ⊢
      omega
  simp only [sumWithCarries]
  have hlo := hcarry (a.lo + b.lo) (by omega)
  generalize decide (base ≤ a.lo + b.lo) = c₀ at *
  have hle₀ := c₀.toNat_le
  have hmid := hcarry (a.mid + b.mid + c₀.toNat) (by omega)
  generalize decide (base ≤ a.mid + b.mid + c₀.toNat) = c₁ at *
  refine ⟨Nat.mod_lt _ (Nat.two_pow_pos 88), Nat.mod_lt _ (Nat.two_pow_pos 88), ?_, ?_, ?_⟩
  · rw [hlo, sumDigits, Nat.cast_add]
  · rw [hmid, sumDigits, Nat.cast_add, Nat.cast_add]
  · rw [sumDigits, Nat.cast_add, Nat.cast_add]

end Limbs

namespace Run

theorem carriesAll_limbs {x : Limbs (Expr n)} {v : Limbs (Residue n)} :
    s.CarriesAll x.toList v.toList ↔
      s.Carries x.lo v.lo ∧ s.Carries x.mid v.mid ∧ s.Carries x.hi v.hi := by
  simp only [Limbs.toList, carriesAll_cons, carriesAll_nil, and_true]

end Run

namespace Limbs

variable {x a b : Limbs (Expr n)} {j k : Nat}

theorem carries_constant (k : Nat) : s.Carries (constant k : Limbs (Expr n)) k :=
  Run.carriesAll_limbs.mpr ⟨.const _, .const _, .const _⟩

theorem eval_congr {ρ ρ' : Nat → Residue n} (h : ∀ i < k, ρ' i = ρ i) (hx : x.Below k) :
    x.eval ρ' = x.eval ρ := by
  obtain ⟨hlo, hmid, hhi⟩ := hx
  simp only [eval, map, Expr.eval_congr h hlo, Expr.eval_congr h hmid, Expr.eval_congr h hhi]

theorem below_of_carries (hx : s.Carries x k) : x.Below s.nextVar := by
  obtain ⟨hlo, hmid, hhi⟩ := Run.carriesAll_limbs.mp hx
  exact ⟨hlo.below, hmid.below, hhi.below⟩

theorem carries_of_inRange (hx : x.Below s.nextVar)
    (hrange : (x.eval s.assignment).InRange) : s.Carries x (x.eval s.assignment).toNat := by
  have hlimb : ∀ limb : Expr n, limb.Below s.nextVar →
      s.Carries limb (Residue.ofNat (limb.eval s.assignment).val) := by
    intro limb hlimb
    rw [Residue.ofNat_val]
    exact .of_below hlimb
  change s.CarriesAll x.toList ((ofNat (x.eval s.assignment).toNat).map Residue.ofNat).toList
  rw [ofNat_toNat hrange.lo hrange.mid]
  exact Run.carriesAll_limbs.mpr ⟨hlimb _ hx.1, hlimb _ hx.2.1, hlimb _ hx.2.2⟩

variable [PastaPrime n]

theorem eval_of_carries_mod (hx : s.Carries x k) :
    x.eval s.assignment = ofNat (k % (2 ^ 176 * n)) := by
  obtain ⟨hlo, hmid, hhi⟩ := Run.carriesAll_limbs.mp hx
  rw [← map_val_ofNat]
  simp only [eval, map, hlo.eval, hmid.eval, hhi.eval]

theorem eval_of_carries (hx : s.Carries x k) (hk : k < 2 ^ 265) :
    x.eval s.assignment = ofNat k := by
  have hn := PastaPrime.two_pow_lt (n := n)
  rw [eval_of_carries_mod hx, Nat.mod_eq_of_lt (by omega)]

theorem eq_of_constantValue? (hx : s.Carries x k) (hk : k < 2 ^ 264)
    (hj : CircuitType.constantValue? (n := n) x = some j) : j = k := by
  rw [← constantValue?_eq_some (ρ := s.assignment) hj, eval_of_carries hx (by omega), toNat_ofNat]

theorem reads_values (hx : s.Carries x k) (hk : k < 2 ^ 264) : s.Reads x.values (ofNat k) := by
  rw [← eval_of_carries hx (by omega)]
  obtain ⟨hlo, hmid, hhi⟩ := Run.carriesAll_limbs.mp hx
  exact .bind (.value (.of_below hlo.below)) (.bind (.value (.of_below hmid.below))
    (.bind (.value (.of_below hhi.below)) (.pure _)))

/-! ### Gadgets -/

omit [PastaPrime n] in
theorem assertRange_proves_of_inRange (hx : x.Below s.nextVar)
    (hrange : (x.eval s.assignment).InRange) :
    Proves s (x.assertRange : Builder n σ Unit) fun _ _ => True := by
  unfold assertRange
  split
  · exact .pure trivial
  · refine .assert (c := .limbs x.lo x.mid x.hi) hx ?_
    exact (Constraint.holds_limbs ..).mpr ⟨hrange.lo, hrange.mid, hrange.hi⟩

theorem assertRange_proves (hx : s.Carries x k) (hk : k < 2 ^ 264) :
    Proves s (x.assertRange : Builder n σ Unit) fun _ _ => True := by
  refine assertRange_proves_of_inRange (below_of_carries hx) ?_
  rw [eval_of_carries hx (by omega)]
  exact inRange_ofNat hk

theorem assertRange_fails (heval : s.evaluates = true) (hx : s.Carries x k) (hk : 2 ^ 264 ≤ k)
    (hlt : k < 2 ^ 265) :
    Fails s (x.assertRange : Builder n σ Unit)
      (.violation (.tooWide (ofNat k).hi limbBits)) := by
  obtain ⟨hxlo, hxmid, hxhi⟩ := Run.carriesAll_limbs.mp hx
  have hvalue := eval_of_carries hx hlt
  have hlo : (x.eval s.assignment).lo < 2 ^ 88 := by
    rw [hvalue]
    exact Nat.mod_lt _ (Nat.two_pow_pos 88)
  have hmid : (x.eval s.assignment).mid < 2 ^ 88 := by
    rw [hvalue]
    exact Nat.mod_lt _ (Nat.two_pow_pos 88)
  have hwide : 2 ^ 88 ≤ (x.eval s.assignment).hi := by
    rw [hvalue]
    simp only [ofNat, base_eq]
    omega
  rw [← hvalue]
  unfold assertRange
  split
  · next hshort =>
      have hlt := Expr.val_lt_of_isShortConstant (ρ := s.assignment)
        (List.all_eq_true.mp hshort x.hi (by simp [toList]))
      exact absurd hlt (not_lt.mpr hwide)
  · exact .assert heval (c := .limbs x.lo x.mid x.hi) ⟨hxlo.below, hxmid.below, hxhi.below⟩
      (Constraint.check_limbs_tooWide s.assignment hlo hmid hwide)

theorem assertCarry_proves {x : Expr n} {c : ℤ} (hc : |c| ≤ 1)
    (hx : s.Carries x (c : Residue n)) :
    Proves s (assertCarry x : Builder n σ Unit) fun _ _ => True := by
  have hcube : (c : Residue n) ^ 2 * c = c := by
    rw [abs_le] at hc
    obtain rfl | rfl | rfl : c = -1 ∨ c = 0 ∨ c = 1 := by omega
    · push_cast
      ring
    · push_cast
      ring
    · push_cast
      ring
  unfold assertCarry
  refine (Expr.square_proves hx).bind fun t squared hst hsquared => ?_
  replace hx := hx.mono hst
  refine (Expr.mul_proves hsquared hx).bind fun u cubed htu hcubed => ?_
  rw [hcube] at hcubed
  exact Expr.assertEqual_proves (hx.mono htu) hcubed

omit [PastaPrime n] in
theorem assertDigits_proves {digits result : Limbs (Expr n)} {carryLo carryMid : Expr n}
    {ds : Limbs ℤ} {c₀ c₁ : ℤ} {v : Limbs Nat}
    (hdigits : s.CarriesAll digits.toList (ds.map (Int.cast (R := Residue n))).toList)
    (hc₀ : s.Carries carryLo (c₀ : Residue n)) (hc₁ : s.Carries carryMid (c₁ : Residue n))
    (hresult : s.CarriesAll result.toList (v.map Residue.ofNat).toList)
    (hnormal : Normalizes ds c₀ c₁ v) :
    Proves s (assertDigits digits carryLo carryMid result : Builder n σ Unit)
      fun _ _ => True := by
  obtain ⟨hdlo, hdmid, hdhi⟩ := Run.carriesAll_limbs.mp hdigits
  obtain ⟨hlo, hmid, hhi⟩ := Run.carriesAll_limbs.mp hresult
  have hweight : (Residue.ofNat base : Residue n) = 2 ^ 88 := Residue.twoPow_eq 88
  have hlo' : s.Carries (digits.lo - (.ofNat base : Residue n) • carryLo)
      ((v.map (Residue.ofNat (n := n))).lo) := by
    convert hdlo.minus (hc₀.smul (.ofNat base)) using 1
    have hcast := congrArg (Int.cast (R := Residue n)) hnormal.lo
    simp only [Int.cast_sub, Int.cast_mul, Int.cast_pow, Int.cast_ofNat, Int.cast_natCast]
      at hcast
    rw [hweight]
    exact hcast
  have hmid' : s.Carries (digits.mid + carryLo - (.ofNat base : Residue n) • carryMid)
      ((v.map (Residue.ofNat (n := n))).mid) := by
    convert (hdmid.plus hc₀).minus (hc₁.smul (.ofNat base)) using 1
    have hcast := congrArg (Int.cast (R := Residue n)) hnormal.mid
    simp only [Int.cast_add, Int.cast_sub, Int.cast_mul, Int.cast_pow, Int.cast_ofNat,
      Int.cast_natCast] at hcast
    rw [hweight]
    exact hcast
  have hhi' : s.Carries (digits.hi + carryMid) ((v.map (Residue.ofNat (n := n))).hi) := by
    convert hdhi.plus hc₁ using 1
    have hcast := congrArg (Int.cast (R := Residue n)) hnormal.hi
    simp only [Int.cast_add, Int.cast_natCast] at hcast
    exact hcast
  unfold assertDigits
  refine (Expr.assertEqual_proves hlo hlo').bind fun t _ hst _ => ?_
  refine (Expr.assertEqual_proves (hmid.mono hst) (hmid'.mono hst)).bind fun u _ htu _ => ?_
  exact Expr.assertEqual_proves (hhi.mono (hst.trans htu)) (hhi'.mono (hst.trans htu))

omit [PastaPrime n] in
theorem carries_differenceExprs {v w : Limbs Nat} (modulus : Nat) {borrow : BoolVar n} {o : Bool}
    (ha : s.CarriesAll a.toList (v.map Residue.ofNat).toList)
    (hb : s.CarriesAll b.toList (w.map Residue.ofNat).toList) (ho : s.Carries borrow o) :
    s.CarriesAll (differenceExprs a b modulus borrow).toList
      ((differenceDigits v w modulus o).map (Int.cast (R := Residue n))).toList := by
  obtain ⟨halo, hamid, hahi⟩ := Run.carriesAll_limbs.mp ha
  obtain ⟨hblo, hbmid, hbhi⟩ := Run.carriesAll_limbs.mp hb
  have hdigit : ∀ {x y : Expr n} {i j : Nat} (l : Nat), s.Carries x (Residue.ofNat i) →
      s.Carries y (Residue.ofNat j) → s.Carries (x - y + (Residue.ofNat l : Residue n) • borrow.expr)
        ((i - j + l * o.toNat : ℤ) : Residue n) := by
    intro x y i j l hx hy
    convert (hx.minus hy).plus ((Run.carries_bool.mp ho).smul (.ofNat l)) using 1
    rw [← Residue.natCast_toNat]
    push_cast
    rfl
  exact Run.carriesAll_limbs.mpr ⟨hdigit _ halo hblo, hdigit _ hamid hbmid, hdigit _ hahi hbhi⟩

theorem subVar_proves {modulus : Nat} (ha : s.Carries a j) (hb : s.Carries b k)
    (hj : j < 2 ^ 264) (hk : k < 2 ^ 264) (hmodulus : modulus < 2 ^ 264)
    (hle : k ≤ j + modulus) :
    Proves s (subVar a b modulus : Builder n σ (Limbs (Expr n))) fun t r =>
      t.Carries r (differenceValue j k modulus) := by
  have hread : s.Reads (do
      let d := difference (← a.values) (← b.values) modulus
      return (d.borrow, (.ofNat d.result.lo, .ofNat d.result.mid, .ofNat d.result.hi),
        .ofInt d.carryLo, .ofInt d.carryMid) :
      Reading n (Bool × (Residue n × Residue n × Residue n) × Residue n × Residue n)) _ :=
    .bind (reads_values ha hj) (.bind (reads_values hb hk) (.pure _))
  have hresult := result_difference (ofNat j) (ofNat k) modulus
  rw [toNat_ofNat, toNat_ofNat] at hresult
  have hjrange := inRange_ofNat hj
  have hkrange := inRange_ofNat hk
  obtain ⟨hrange, hcarryLo, hcarryMid, hnormal⟩ := difference_spec hjrange hkrange hmodulus
    (by rwa [toNat_ofNat, toNat_ofNat])
  rw [subVar_eq]
  refine (Proves.compute hread).bind ?_
  rintro t ⟨borrow, ⟨lo, mid, hi⟩, carryLo, carryMid⟩ hst hcells
  simp only [Run.carries_pair] at hcells
  generalize difference (ofNat j) (ofNat k) modulus = d at *
  obtain ⟨hborrow, ⟨hlo, hmid, hhi⟩, hc₀, hc₁⟩ := hcells
  have hr : t.CarriesAll (toList ⟨lo, mid, hi⟩) (d.result.map Residue.ofNat).toList :=
    Run.carriesAll_limbs.mpr ⟨hlo, hmid, hhi⟩
  refine (assertCarry_proves hcarryLo hc₀).bind fun t₂ _ h₂ _ => ?_
  refine (assertCarry_proves hcarryMid (hc₁.mono h₂)).bind fun t₃ _ h₃ _ => ?_
  have h₁₃ := h₂.trans h₃
  have hdigits := carries_differenceExprs modulus (ha.mono (hst.trans h₁₃))
    (hb.mono (hst.trans h₁₃)) (hborrow.mono h₁₃)
  simp only [assertNormalized, bind_assoc]
  refine (assertDigits_proves hdigits (hc₀.mono h₁₃) (hc₁.mono h₁₃) (hr.mono h₁₃)
    hnormal).bind fun t₄ _ h₄ _ => ?_
  rw [hresult] at hr hrange
  have hr : t₄.Carries (⟨lo, mid, hi⟩ : Limbs (Expr n)) (differenceValue j k modulus) :=
    hr.mono (h₁₃.trans h₄)
  refine (assertRange_proves hr ?_).bind fun t₅ _ h₅ _ => .pure (hr.mono h₅)
  rw [← toNat_ofNat (differenceValue j k modulus)]
  exact hrange.toNat_lt

theorem sub_proves {modulus : Nat} (ha : s.Carries a j) (hb : s.Carries b k)
    (hj : j < modulus) (hk : k < modulus) (hmodulus : modulus < 2 ^ 264) :
    Proves s (sub a b modulus : Builder n σ (Limbs (Expr n))) fun t r =>
      t.Carries r ((j + (modulus - k)) % modulus) := by
  have hvalue : differenceValue j k modulus = (j + (modulus - k)) % modulus := by
    unfold differenceValue
    split
    · rw [Nat.mod_eq_of_lt (by omega)]
      omega
    · have hsum : j + (modulus - k) = j - k + modulus := by omega
      rw [hsum, Nat.add_mod_right, Nat.mod_eq_of_lt (by omega)]
  have hvar := subVar_proves ha hb (hj.trans hmodulus) (hk.trans hmodulus) hmodulus (by omega)
  rw [hvalue] at hvar
  cases hx : CircuitType.constantValue? (n := n) a with
  | none => rwa [sub_of_var hmodulus (.inl hx)]
  | some x =>
      cases hy : CircuitType.constantValue? (n := n) b with
      | none => rwa [sub_of_var hmodulus (.inr hy)]
      | some y =>
          obtain rfl := eq_of_constantValue? ha (hj.trans hmodulus) hx
          obtain rfl := eq_of_constantValue? hb (hk.trans hmodulus) hy
          rw [sub_of_constants (by omega) hmodulus hx hy, Nat.mod_eq_of_lt hk,
            Nat.add_sub_assoc hk.le]
          exact .pure (carries_constant _)

omit [PastaPrime n] in
theorem carries_sumExprs {v w : Limbs Nat} (ha : s.CarriesAll a.toList (v.map Residue.ofNat).toList)
    (hb : s.CarriesAll b.toList (w.map Residue.ofNat).toList) :
    s.CarriesAll (sumExprs a b).toList ((sumDigits v w).map (Int.cast (R := Residue n))).toList := by
  obtain ⟨halo, hamid, hahi⟩ := Run.carriesAll_limbs.mp ha
  obtain ⟨hblo, hbmid, hbhi⟩ := Run.carriesAll_limbs.mp hb
  have hdigit : ∀ {x y : Expr n} {i j : Nat}, s.Carries x (Residue.ofNat i) →
      s.Carries y (Residue.ofNat j) → s.Carries (x + y) ((i + j : ℤ) : Residue n) := by
    intro x y i j hx hy
    convert hx.plus hy using 1
    push_cast
    rfl
  exact Run.carriesAll_limbs.mpr ⟨hdigit halo hblo, hdigit hamid hbmid, hdigit hahi hbhi⟩

def gapSum (x : Limbs (Expr n)) (bound : Nat) : Builder n σ (Limbs (Expr n)) := do
  let gap := ofNat (Binary.twoPow bits - bound)
  let (carryLo, carryMid, lo, mid, hi) :
      BoolVar n × BoolVar n × Expr n × Expr n × Expr n ← compute do
    let (carryLo, carryMid, sum) := sumWithCarries (← x.values) gap
    return (carryLo, carryMid, .ofNat sum.lo, .ofNat sum.mid, .ofNat sum.hi)
  assertDigits (sumExprs x (constant (Binary.twoPow bits - bound))) carryLo.expr carryMid.expr
    ⟨lo, mid, hi⟩
  return ⟨lo, mid, hi⟩

omit [PastaPrime n] in
theorem assertLessVar_eq_gapSum (x : Limbs (Expr n)) (bound : Nat) :
    (assertLessVar x bound : Builder n σ Unit) = gapSum x bound >>= assertRange := by
  simp only [assertLessVar_eq, gapSum, assertNormalized, bind_assoc, pure_bind]

theorem gapSum_proves {bound : Nat} (hx : s.Carries x k) (hk : k < 2 ^ 264)
    (hpos : 0 < bound) :
    Proves s (gapSum x bound : Builder n σ (Limbs (Expr n))) fun t sum =>
      t.Carries sum (k + (2 ^ 264 - bound)) := by
  have hgap : Binary.twoPow bits - bound < 2 ^ 264 := by
    rw [twoPow_bits]
    omega
  obtain ⟨hlo, hmid, hnormal⟩ := sumWithCarries_spec (inRange_ofNat hk) (inRange_ofNat hgap)
  generalize hr : sumWithCarries (ofNat k) (ofNat (Binary.twoPow bits - bound)) = r
    at hlo hmid hnormal
  obtain ⟨c₀, c₁, v⟩ := r
  have hread : s.Reads (do
      let (carryLo, carryMid, sum) :=
        sumWithCarries (← x.values) (ofNat (Binary.twoPow bits - bound))
      return (carryLo, carryMid, .ofNat sum.lo, .ofNat sum.mid, .ofNat sum.hi) :
      Reading n (Bool × Bool × Residue n × Residue n × Residue n))
      (c₀, c₁, .ofNat v.lo, .ofNat v.mid, .ofNat v.hi) := by
    refine .bind (reads_values hx hk) ?_
    rw [hr]
    exact .pure _
  unfold gapSum
  refine (Proves.compute hread).bind ?_
  rintro t ⟨carryLo, carryMid, lo, mid, hi⟩ hst hcells
  simp only [Run.carries_pair] at hcells
  obtain ⟨hc₀, hc₁, hvlo, hvmid, hvhi⟩ := hcells
  have hcarry : ∀ {b : BoolVar n} {c : Bool}, t.Carries b c →
      t.Carries b.expr (((c.toNat : ℤ)) : Residue n) := by
    intro b c hb
    rw [Int.cast_natCast, Residue.natCast_toNat]
    exact Run.carries_bool.mp hb
  have hv : t.CarriesAll (toList ⟨lo, mid, hi⟩) (v.map Residue.ofNat).toList :=
    Run.carriesAll_limbs.mpr ⟨hvlo, hvmid, hvhi⟩
  have htotal := hnormal.toNat_eq
  rw [total_sumDigits, toNat_ofNat, toNat_ofNat, twoPow_bits] at htotal
  have hsum : v = ofNat (k + (2 ^ 264 - bound)) := by
    rw [← Nat.cast_add, Nat.cast_inj] at htotal
    rw [← htotal, ofNat_toNat hlo hmid]
  refine (assertDigits_proves (carries_sumExprs (hx.mono hst) (carries_constant _)) (hcarry hc₀)
    (hcarry hc₁) hv hnormal).bind fun u _ htu _ => .pure ?_
  rw [hsum] at hv
  exact hv.mono htu

theorem assertLessVar_proves {bound : Nat} (hx : s.Carries x k) (hk : k < bound)
    (hbound : bound ≤ 2 ^ 264) :
    Proves s (assertLessVar x bound : Builder n σ Unit) fun _ _ => True := by
  rw [assertLessVar_eq_gapSum]
  exact (gapSum_proves hx (by omega) (by omega)).bind fun t sum _ hsum =>
    assertRange_proves hsum (by omega)

theorem assertLessVar_fails (heval : s.evaluates = true) {bound : Nat} (hx : s.Carries x k)
    (hk : k < 2 ^ 264) (hpos : 0 < bound) (hle : bound ≤ k) :
    Fails s (assertLessVar x bound : Builder n σ Unit)
      (.violation (.tooWide (ofNat (k + (2 ^ 264 - bound))).hi limbBits)) := by
  rw [assertLessVar_eq_gapSum]
  exact .bind (gapSum_proves hx hk hpos) fun t sum hst hsum =>
    assertRange_fails (hst.evaluates.trans heval) hsum (by omega) (by omega)

theorem assertLess_proves {bound : Nat} (hx : s.Carries x k) (hk : k < bound)
    (hbound : bound ≤ 2 ^ 264) :
    Proves s (assertLess x bound : Builder n σ Unit) fun _ _ => True := by
  unfold assertLess
  rw [if_neg (not_refused (by omega) hbound)]
  split
  · next a ha =>
      rw [eq_of_constantValue? hx (by omega) ha, if_pos hk]
      exact .pure trivial
  · exact assertLessVar_proves hx hk hbound

theorem assertLess_fails (heval : s.evaluates = true) {bound : Nat} (hx : s.Carries x k)
    (hvar : CircuitType.constantValue? (n := n) x = none) (hk : k < 2 ^ 264) (hpos : 0 < bound)
    (hle : bound ≤ k) :
    Fails s (assertLess x bound : Builder n σ Unit)
      (.violation (.tooWide (ofNat (k + (2 ^ 264 - bound))).hi limbBits)) := by
  unfold assertLess
  rw [if_neg (not_refused hpos (by omega)), hvar]
  exact assertLessVar_fails heval hx hk hpos hle

end Limbs

end PallasCircuits
