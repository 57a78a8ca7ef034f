import PallasCircuits.Gadget.Limbs
import PallasCircuits.Proofs.Gadget.Range
import PallasCircuits.Proofs.Gadget.Setup

namespace PallasCircuits

open Builder

variable {n : Nat} [Modulus n] {σ : Type} {ρ : Nat → Residue n}

/-! Constraints on limbs are constraints on the numbers that they make up: in range, none of
their equations wraps around. -/

theorem Residue.eq_of_intCast_eq [PastaPrime n] {x y : ℤ}
    (h : (x : Residue n) = (y : Residue n)) (hlt : |y - x| < 2 ^ 254) : x = y := by
  have hn : ((2 ^ 254 : Nat) : ℤ) < n := Int.ofNat_lt.mpr PastaPrime.two_pow_lt
  have hcast : (x : ZMod n) = (y : ZMod n) := by
    rw [← toZMod_ofInt, ← toZMod_ofInt]
    exact congrArg toZMod h
  have hdvd := (ZMod.intCast_eq_intCast_iff_dvd_sub x y n).mp hcast
  have hzero := Int.eq_zero_of_abs_lt_dvd hdvd (hlt.trans (by simpa using hn))
  omega

namespace Limbs

theorem base_eq : base = 2 ^ 88 := rfl

theorem twoPow_bits : Binary.twoPow bits = 2 ^ 264 := by
  have hbits : bits = 264 := rfl
  rw [Binary.twoPow_eq, hbits]

structure InRange (x : Limbs Nat) : Prop where
  lo : x.lo < 2 ^ 88
  mid : x.mid < 2 ^ 88
  hi : x.hi < 2 ^ 88

theorem InRange.toNat_lt {x : Limbs Nat} (hx : x.InRange) : x.toNat < 2 ^ 264 := by
  obtain ⟨hlo, hmid, hhi⟩ := hx
  simp only [toNat, base_eq]
  omega

theorem inRange_ofNat {k : Nat} (hk : k < 2 ^ 264) : (ofNat k).InRange where
  lo := Nat.mod_lt k (Nat.two_pow_pos 88)
  mid := Nat.mod_lt _ (Nat.two_pow_pos 88)
  hi := by
    simp only [ofNat, base_eq]
    omega

theorem ofNat_toNat {x : Limbs Nat} (hlo : x.lo < 2 ^ 88) (hmid : x.mid < 2 ^ 88) :
    ofNat x.toNat = x := by
  obtain ⟨lo, mid, hi⟩ := x
  simp only [ofNat, toNat, base_eq, mk.injEq] at *
  exact ⟨by omega, by omega, by omega⟩

theorem inRange_ofNat_iff {k : Nat} : (ofNat k).InRange ↔ k < 2 ^ 264 := by
  refine ⟨fun h => ?_, inRange_ofNat⟩
  have hlt := h.toNat_lt
  rwa [toNat_ofNat] at hlt

theorem ofNat_mod (k m : Nat) :
    ofNat (k % (2 ^ 176 * m)) = ⟨(ofNat k).lo, (ofNat k).mid, (ofNat k).hi % m⟩ := by
  have hfactor : 2 ^ 176 * m = 2 ^ 88 * (2 ^ 88 * m) := by
    rw [← mul_assoc, ← pow_add]
  simp only [ofNat, base_eq, hfactor, Nat.mod_mul_right_div_self,
    Nat.mod_mod_of_dvd _ (Nat.dvd_mul_right _ _)]

/-- As field elements the two lower limbs stay the same. Of the highest one, which may be anything,
only what it is modulo `n` remains. -/
theorem map_val_ofNat [PastaPrime n] (k : Nat) :
    ((ofNat k).map fun limb => (Residue.ofNat limb : Residue n).val) =
      ofNat (k % (2 ^ 176 * n)) := by
  have hval : ∀ j, (Residue.ofNat (j % base) : Residue n).val = j % base := fun j =>
    Residue.val_natCast_of_lt_two_pow ((Nat.mod_lt j (Nat.two_pow_pos 88)).trans (by decide))
  rw [ofNat_mod]
  simp only [map, ofNat, hval, Residue.val_ofNat]

def eval (ρ : Nat → Residue n) (x : Limbs (Expr n)) : Limbs Nat :=
  x.map fun limb => (limb.eval ρ).val

theorem eval_constant [PastaPrime n] {k : Nat} (hk : k < 2 ^ 264) :
    (constant k : Limbs (Expr n)).eval ρ = ofNat k := by
  obtain ⟨hlo, hmid, hhi⟩ := inRange_ofNat hk
  have hval : ∀ j < 2 ^ 88, (Residue.ofNat j : Residue n).val = j := fun j hj =>
    Residue.val_natCast_of_lt_two_pow (by omega)
  simp only [eval, constant, map, Expr.eval_const, hval _ hlo, hval _ hmid, hval _ hhi]

theorem constantValue?_eq_some {x : Limbs (Expr n)} {k : Nat}
    (hx : CircuitType.constantValue? (n := n) x = some k) : (x.eval ρ).toNat = k := by
  simp only [CircuitType.constantValue?, CircuitType.toExprs, toList, List.mapM_cons,
    List.mapM_nil, Option.pure_def, Option.bind_eq_bind, Option.bind_some,
    Option.bind_eq_some_iff] at hx
  obtain ⟨_, ⟨lo, hlo, _, ⟨mid, hmid, _, ⟨hi, hhi, ⟨⟩⟩, ⟨⟩⟩, ⟨⟩⟩, ⟨⟩⟩ := hx
  simp only [eval, map, Expr.eval_of_toConstant? ρ hlo, Expr.eval_of_toConstant? ρ hmid,
    Expr.eval_of_toConstant? ρ hhi]

theorem constantValue?_of_pos {x : Limbs (Expr n)} (hx : 0 < x.lo.occurrences) :
    CircuitType.constantValue? (n := n) x = none := by
  simp [CircuitType.constantValue?, CircuitType.toExprs, toList, Expr.toConstant?_of_pos hx]

theorem constantValue?_eq_none_iff {x : Limbs (Expr n)} :
    CircuitType.constantValue? (n := n) x = none ↔ ∃ limb ∈ x.toList, limb.toConstant? = none := by
  simp only [CircuitType.constantValue?, CircuitType.toExprs, CircuitType.decode?, toList,
    List.mapM_cons, List.mapM_nil, Option.pure_def, Option.bind_eq_bind, List.mem_cons,
    List.not_mem_nil, or_false, exists_eq_or_imp, exists_eq_left]
  cases x.lo.toConstant? with
  | none => simp
  | some lo =>
      cases x.mid.toConstant? with
      | none => simp
      | some mid =>
          cases x.hi.toConstant? with
          | none => simp
          | some hi => simp

theorem constantValue?_constant [PastaPrime n] {j : Nat} (hj : j < 2 ^ 264) :
    CircuitType.constantValue? (n := n) (constant j : Limbs (Expr n)) = some j := by
  obtain ⟨hlo, hmid, hhi⟩ := inRange_ofNat hj
  have hval : ∀ limb < 2 ^ 88, ((limb : Nat) : Residue n).val = limb := fun limb hlimb =>
    Residue.val_natCast_of_lt_two_pow (hlimb.trans (by decide))
  simp only [CircuitType.constantValue?, CircuitType.toExprs, CircuitType.decode?, constant, map,
    toList, List.mapM_cons, List.mapM_nil, Expr.toConstant?_const, Residue.ofNat_eq_natCast,
    Option.bind_eq_bind, Option.bind_some, Option.pure_def, hval _ hlo, hval _ hmid, hval _ hhi]
  exact congrArg some (toNat_ofNat j)

/-! ### Carries -/

/-- Handing on two carries turns digits that may be out of range into those of `result`. -/
structure Normalizes (digits : Limbs ℤ) (carryLo carryMid : ℤ) (result : Limbs Nat) : Prop where
  lo : result.lo = digits.lo - 2 ^ 88 * carryLo
  mid : result.mid = digits.mid + carryLo - 2 ^ 88 * carryMid
  hi : result.hi = digits.hi + carryMid

def total (digits : Limbs ℤ) : ℤ :=
  digits.lo + 2 ^ 88 * (digits.mid + 2 ^ 88 * digits.hi)

theorem Normalizes.toNat_eq {digits : Limbs ℤ} {carryLo carryMid : ℤ} {result : Limbs Nat}
    (h : Normalizes digits carryLo carryMid result) : (result.toNat : ℤ) = digits.total := by
  obtain ⟨hlo, hmid, hhi⟩ := h
  simp only [toNat, total, base_eq]
  omega

/-- Digits and carries that are small enough for the equations between them not to wrap
around. -/
structure Small (digits : Limbs ℤ) (carryLo carryMid : ℤ) : Prop where
  digits : ∀ digit ∈ digits.toList, |digit| ≤ 2 ^ 90
  carryLo : |carryLo| ≤ 1
  carryMid : |carryMid| ≤ 1

theorem Normalizes.of_residues [PastaPrime n] {digits : Limbs ℤ} {carryLo carryMid : ℤ}
    {result : Limbs Nat} (hsmall : Small digits carryLo carryMid) (hresult : result.InRange)
    (hlo : (result.lo : Residue n) = (digits.lo - 2 ^ 88 * carryLo : ℤ))
    (hmid : (result.mid : Residue n) = (digits.mid + carryLo - 2 ^ 88 * carryMid : ℤ))
    (hhi : (result.hi : Residue n) = (digits.hi + carryMid : ℤ)) :
    Normalizes digits carryLo carryMid result := by
  obtain ⟨hdigits, hcarryLo, hcarryMid⟩ := hsmall
  simp only [toList, List.mem_cons, List.not_mem_nil, or_false, forall_eq_or_imp,
    forall_eq, abs_le] at hdigits
  rw [abs_le] at hcarryLo hcarryMid
  obtain ⟨hrlo, hrmid, hrhi⟩ := hresult
  refine ⟨Residue.eq_of_intCast_eq (n := n) (by rwa [Int.cast_natCast]) ?_,
    Residue.eq_of_intCast_eq (n := n) (by rwa [Int.cast_natCast]) ?_,
    Residue.eq_of_intCast_eq (n := n) (by rwa [Int.cast_natCast]) ?_⟩
  · rw [abs_lt]
    omega
  · rw [abs_lt]
    omega
  · rw [abs_lt]
    omega

/-! ### Gadgets -/

theorem assertRange_ensures (x : Limbs (Expr n)) :
    Ensures ρ (x.assertRange : Builder n σ Unit) fun _ => (x.eval ρ).InRange := by
  unfold assertRange
  split
  · next hshort =>
      have hlimb : ∀ limb ∈ x.toList, (limb.eval ρ).val < 2 ^ 88 := fun limb hlimb =>
        Expr.val_lt_of_isShortConstant (List.all_eq_true.mp hshort limb hlimb)
      simp only [toList, List.mem_cons, List.not_mem_nil, or_false, forall_eq_or_imp,
        forall_eq] at hlimb
      exact .pure ⟨hlimb.1, hlimb.2.1, hlimb.2.2⟩
  · refine (Ensures.assert _).mono fun _ h => ?_
    obtain ⟨hlo, hmid, hhi⟩ := (Constraint.holds_limbs ρ x.lo x.mid x.hi).mp h
    exact ⟨hlo, hmid, hhi⟩

theorem assertRange_builds (x : Limbs (Expr n)) :
    Builds (x.assertRange : Builder n σ Unit) fun _ => True := by
  unfold assertRange
  split
  · exact .pure trivial
  · exact .assert _

theorem assertCarry_ensures [PastaPrime n] (x : Expr n) :
    Ensures ρ (assertCarry x : Builder n σ Unit)
      fun _ => ∃ c : ℤ, |c| ≤ 1 ∧ x.eval ρ = (c : Residue n) := by
  unfold assertCarry
  apply (Expr.square_ensures x).bind
  intro squared
  apply (Expr.mul_ensures squared x).bind
  intro cubed
  refine (Expr.assertEqual_ensures x cubed).mono ?_
  intro _ hx hcubed hsquared
  generalize x.eval ρ = a at *
  have hfactors : a * ((a - 1) * (a + 1)) = 0 := by
    rw [hcubed, hsquared] at hx
    linear_combination -hx
  rcases mul_eq_zero.mp hfactors with hzero | hrest
  · exact ⟨0, by decide, by rw [hzero, Int.cast_zero]⟩
  · rcases mul_eq_zero.mp hrest with hone | hminusOne
    · exact ⟨1, by decide, by rw [sub_eq_zero.mp hone, Int.cast_one]⟩
    · exact ⟨-1, by decide, by rw [eq_neg_of_add_eq_zero_left hminusOne, Int.cast_neg,
        Int.cast_one]⟩

theorem assertCarry_builds {x : Expr n} (hx : 0 < x.occurrences) :
    Builds (assertCarry x : Builder n σ Unit) fun _ => True := by
  unfold assertCarry
  refine (Expr.square_builds x).bind fun squared _ => ?_
  refine (Expr.mul_builds squared x).bind fun cubed _ => ?_
  exact Expr.assertEqual_builds_of_pos (Nat.add_pos_left hx _)

def assertDigits (digits : Limbs (Expr n)) (carryLo carryMid : Expr n)
    (result : Limbs (Expr n)) : Builder n σ Unit := do
  result.lo.assertEqual (digits.lo - (.ofNat base : Residue n) • carryLo)
  result.mid.assertEqual (digits.mid + carryLo - (.ofNat base : Residue n) • carryMid)
  result.hi.assertEqual (digits.hi + carryMid)

def assertNormalized (digits : Limbs (Expr n)) (carryLo carryMid : Expr n)
    (result : Limbs (Expr n)) : Builder n σ Unit := do
  assertDigits digits carryLo carryMid result
  result.assertRange

theorem assertNormalized_ensures [PastaPrime n] (digits result : Limbs (Expr n))
    (carryLo carryMid : Expr n) :
    Ensures ρ (assertNormalized digits carryLo carryMid result : Builder n σ Unit) fun _ =>
      (result.eval ρ).InRange ∧ ∀ (ds : Limbs ℤ) (c₀ c₁ : ℤ), Small ds c₀ c₁ →
        digits.map (·.eval ρ) = ds.map (Int.cast (R := Residue n)) →
        carryLo.eval ρ = (c₀ : Residue n) → carryMid.eval ρ = (c₁ : Residue n) →
        Normalizes ds c₀ c₁ (result.eval ρ) := by
  simp only [assertNormalized, assertDigits, bind_assoc]
  apply (Expr.assertEqual_ensures result.lo _).bind
  intro _
  apply (Expr.assertEqual_ensures result.mid _).bind
  intro _
  apply (Expr.assertEqual_ensures result.hi _).bind
  intro _
  refine (assertRange_ensures result).mono ?_
  rintro _ hrange hhi hmid hlo
  refine ⟨hrange, fun ds c₀ c₁ hsmall hdigits hc₀ hc₁ => ?_⟩
  simp only [map, mk.injEq] at hdigits
  obtain ⟨hdlo, hdmid, hdhi⟩ := hdigits
  simp only [Expr.eval_minus, Expr.eval_plus, Expr.eval_smul, hdlo, hdmid, hdhi, hc₀, hc₁]
    at hlo hmid hhi
  refine .of_residues (n := n) hsmall hrange ?_ ?_ ?_
  · simp only [eval, map, Residue.natCast_val, hlo, base_eq]
    push_cast
    rfl
  · simp only [eval, map, Residue.natCast_val, hmid, base_eq]
    push_cast
    rfl
  · simp only [eval, map, Residue.natCast_val, hhi]
    push_cast
    rfl

theorem assertNormalized_builds {digits result : Limbs (Expr n)} {carryLo carryMid : Expr n}
    (hresult : ∀ limb ∈ result.toList, 0 < limb.occurrences) :
    Builds (assertNormalized digits carryLo carryMid result : Builder n σ Unit)
      fun _ => True := by
  simp only [toList, List.mem_cons, List.not_mem_nil, or_false, forall_eq_or_imp,
    forall_eq] at hresult
  obtain ⟨hlo, hmid, hhi⟩ := hresult
  simp only [assertNormalized, assertDigits, bind_assoc]
  refine (Expr.assertEqual_builds_of_pos (Nat.add_pos_left hlo _)).bind fun _ _ => ?_
  refine (Expr.assertEqual_builds_of_pos (Nat.add_pos_left hmid _)).bind fun _ _ => ?_
  refine (Expr.assertEqual_builds_of_pos (Nat.add_pos_left hhi _)).bind fun _ _ => ?_
  exact assertRange_builds result

/-! ### Subtraction -/

def differenceExprs (a b : Limbs (Expr n)) (modulus : Nat) (borrow : BoolVar n) :
    Limbs (Expr n) :=
  let m : Limbs (Residue n) := (ofNat modulus).map .ofNat
  ⟨a.lo - b.lo + m.lo • borrow.expr, a.mid - b.mid + m.mid • borrow.expr,
    a.hi - b.hi + m.hi • borrow.expr⟩

def differenceDigits (a b : Limbs Nat) (modulus : Nat) (borrow : Bool) : Limbs ℤ :=
  let m := ofNat modulus
  ⟨a.lo - b.lo + m.lo * borrow.toNat, a.mid - b.mid + m.mid * borrow.toNat,
    a.hi - b.hi + m.hi * borrow.toNat⟩

theorem total_differenceDigits (a b : Limbs Nat) (modulus : Nat) (borrow : Bool) :
    (differenceDigits a b modulus borrow).total =
      a.toNat - b.toNat + modulus * borrow.toNat := by
  have hm : ((ofNat modulus).toNat : ℤ) = modulus := by rw [toNat_ofNat]
  simp only [toNat, base_eq] at hm
  push_cast at hm
  simp only [differenceDigits, total, toNat, base_eq]
  push_cast
  linear_combination (borrow.toNat : ℤ) * hm

theorem subVar_eq (a b : Limbs (Expr n)) (modulus : Nat) :
    (subVar a b modulus : Builder n σ (Limbs (Expr n))) = (do
      let (borrow, (lo, mid, hi), carryLo, carryMid) :
          BoolVar n × (Expr n × Expr n × Expr n) × Expr n × Expr n ← compute do
        let d := difference (← a.values) (← b.values) modulus
        return (d.borrow, (.ofNat d.result.lo, .ofNat d.result.mid, .ofNat d.result.hi),
          .ofInt d.carryLo, .ofInt d.carryMid)
      assertCarry carryLo
      assertCarry carryMid
      assertNormalized (differenceExprs a b modulus borrow) carryLo carryMid ⟨lo, mid, hi⟩
      return ⟨lo, mid, hi⟩) := by
  simp only [subVar, assertNormalized, assertDigits, differenceExprs, bind_assoc]

theorem small_differenceDigits {a b : Limbs Nat} {modulus : Nat} (ha : a.InRange)
    (hb : b.InRange) (hmodulus : modulus < 2 ^ 264) (borrow : Bool) {carryLo carryMid : ℤ}
    (hcarryLo : |carryLo| ≤ 1) (hcarryMid : |carryMid| ≤ 1) :
    Small (differenceDigits a b modulus borrow) carryLo carryMid := by
  refine ⟨?_, hcarryLo, hcarryMid⟩
  obtain ⟨hmlo, hmmid, hmhi⟩ := inRange_ofNat hmodulus
  obtain ⟨halo, hamid, hahi⟩ := ha
  obtain ⟨hblo, hbmid, hbhi⟩ := hb
  simp only [differenceDigits, toList, List.mem_cons, List.not_mem_nil, or_false,
    forall_eq_or_imp, forall_eq, abs_le]
  cases borrow with
  | false =>
      simp only [Bool.toNat_false]
      omega
  | true =>
      simp only [Bool.toNat_true]
      omega

theorem subVar_ensures [PastaPrime n] (a b : Limbs (Expr n)) {modulus : Nat}
    (hmodulus : modulus < 2 ^ 264) :
    Ensures ρ (subVar a b modulus : Builder n σ (Limbs (Expr n))) fun r =>
      (a.eval ρ).InRange → (b.eval ρ).InRange → (r.eval ρ).InRange ∧ ∃ borrow : Bool,
        (r.eval ρ).toNat + (b.eval ρ).toNat = (a.eval ρ).toNat + modulus * borrow.toNat := by
  rw [subVar_eq]
  refine .bind (.compute fun r => CircuitType.check_pair_ensures
    (CircuitType.check_bool_ensures r.1) (CircuitType.check_pair_ensures
      (CircuitType.check_pair_ensures (CircuitType.check_expr_ensures r.2.1.1)
        (CircuitType.check_exprs_ensures r.2.1.2)) (CircuitType.check_exprs_ensures r.2.2))) ?_
  rintro ⟨borrow, ⟨lo, mid, hi⟩, carryLo, carryMid⟩
  apply (assertCarry_ensures carryLo).bind
  intro _
  apply (assertCarry_ensures carryMid).bind
  intro _
  refine .bind (assertNormalized_ensures _ ⟨lo, mid, hi⟩ carryLo carryMid) fun _ => .pure ?_
  rintro ⟨hrange, hnormalizes⟩ ⟨c₁, hc₁, hcarryMid⟩ ⟨c₀, hc₀, hcarryLo⟩ ⟨⟨v, hv⟩, -⟩ ha hb
  refine ⟨hrange, v, ?_⟩
  have hsmall := small_differenceDigits ha hb hmodulus v hc₀ hc₁
  have hnormal := hnormalizes _ _ _ hsmall ?_ hcarryLo hcarryMid
  · have htotal := hnormal.toNat_eq
    rw [total_differenceDigits] at htotal
    zify
    linear_combination htotal
  · have hv := hv.trans (Residue.natCast_toNat v).symm
    simp only [map, differenceExprs, differenceDigits, Expr.eval_plus, Expr.eval_minus,
      Expr.eval_smul, hv, eval, Int.cast_add, Int.cast_sub, Int.cast_mul, Int.cast_natCast,
      Residue.natCast_val, Residue.ofNat_eq_natCast]

theorem subVar_builds (a b : Limbs (Expr n)) (modulus : Nat) :
    Builds (subVar a b modulus : Builder n σ (Limbs (Expr n)))
      fun r => 0 < r.lo.occurrences := by
  rw [subVar_eq]
  refine Builds.bind (P := fun r => (∀ limb ∈ toList ⟨r.2.1.1, r.2.1.2.1, r.2.1.2.2⟩,
    0 < limb.occurrences) ∧ 0 < r.2.2.1.occurrences ∧ 0 < r.2.2.2.occurrences)
    (.compute fun r hr => ?_) ?_
  · refine (Builds.assert _).bind fun _ _ => .pure ⟨fun limb hlimb => hr limb ?_, ?_, ?_⟩
    · exact List.mem_append_right _ (List.mem_append_left _ hlimb)
    · exact hr _ (by simp [CircuitType.toExprs])
    · exact hr _ (by simp [CircuitType.toExprs])
  · rintro ⟨borrow, ⟨lo, mid, hi⟩, carryLo, carryMid⟩ ⟨hresult, hcarryLo, hcarryMid⟩
    refine (assertCarry_builds hcarryLo).bind fun _ _ => ?_
    refine (assertCarry_builds hcarryMid).bind fun _ _ => ?_
    refine (assertNormalized_builds hresult).bind fun _ _ => .pure ?_
    exact hresult lo List.mem_cons_self

theorem sub_ensures [PastaPrime n] (a b : Limbs (Expr n)) (modulus : Nat) :
    Ensures ρ (sub a b modulus : Builder n σ (Limbs (Expr n))) fun r =>
      (a.eval ρ).InRange → (b.eval ρ).InRange → (r.eval ρ).InRange ∧
        (r.eval ρ).toNat + (b.eval ρ).toNat ≡ (a.eval ρ).toNat [MOD modulus] := by
  unfold sub
  split
  · exact .failSetup _
  · next hwidth =>
      have hmodulus : modulus < 2 ^ 264 := by
        rwa [not_lt, Binary.width_le_iff, twoPow_bits] at hwidth
      have hvar : Ensures ρ (subVar a b modulus : Builder n σ (Limbs (Expr n))) fun r =>
          (a.eval ρ).InRange → (b.eval ρ).InRange → (r.eval ρ).InRange ∧
            (r.eval ρ).toNat + (b.eval ρ).toNat ≡ (a.eval ρ).toNat [MOD modulus] := by
        refine (subVar_ensures a b hmodulus).mono fun r h ha hb => ?_
        obtain ⟨hr, borrow, hsum⟩ := h ha hb
        refine ⟨hr, ?_⟩
        rw [hsum, Nat.ModEq, Nat.add_mul_mod_self_left]
      split
      · next x y hx hy =>
          split
          · exact .throw _
          · next hpos =>
              refine .pure fun _ _ => ?_
              have hlt : (x + modulus - y % modulus) % modulus < modulus :=
                Nat.mod_lt _ (Nat.pos_of_ne_zero hpos)
              rw [eval_constant (hlt.trans hmodulus), constantValue?_eq_some hx,
                constantValue?_eq_some hy, toNat_ofNat]
              refine ⟨inRange_ofNat (hlt.trans hmodulus), ?_⟩
              have hy := Nat.mod_add_div y modulus
              have hylt := Nat.mod_lt y (Nat.pos_of_ne_zero hpos)
              have hsum : x + modulus - y % modulus + y = x + modulus * (y / modulus + 1) := by
                rw [Nat.mul_succ]
                omega
              refine ((Nat.mod_modEq _ modulus).add_right y).trans ?_
              rw [hsum, Nat.ModEq, Nat.add_mul_mod_self_left]
      · exact hvar

omit [Modulus n] in
theorem width_le_bits {modulus : Nat} (hmodulus : modulus < 2 ^ 264) :
    Binary.width modulus ≤ bits := by
  rwa [Binary.width_le_iff, twoPow_bits]

theorem sub_of_constants {a b : Limbs (Expr n)} {modulus : Nat} (hpos : 0 < modulus)
    (hmodulus : modulus < 2 ^ 264) {i j : Nat}
    (ha : CircuitType.constantValue? (n := n) a = some i)
    (hb : CircuitType.constantValue? (n := n) b = some j) :
    (sub a b modulus : Builder n σ (Limbs (Expr n))) =
      pure (constant ((i + modulus - j % modulus) % modulus)) := by
  simp only [sub, if_neg (width_le_bits hmodulus).not_gt, ha, hb, if_neg hpos.ne']

theorem sub_of_var {a b : Limbs (Expr n)} {modulus : Nat} (hmodulus : modulus < 2 ^ 264)
    (hvar : CircuitType.constantValue? (n := n) a = none ∨
      CircuitType.constantValue? (n := n) b = none) :
    (sub a b modulus : Builder n σ (Limbs (Expr n))) = subVar a b modulus := by
  unfold sub
  rw [if_neg (width_le_bits hmodulus).not_gt]
  split
  · next ha hb =>
      rw [ha, hb] at hvar
      rcases hvar with h | h
      · cases h
      · cases h
  · rfl

theorem sub_builds {a b : Limbs (Expr n)} {modulus : Nat} (hmodulus : modulus < 2 ^ 264)
    (ha : CircuitType.constantValue? (n := n) a = none) :
    Builds (sub a b modulus : Builder n σ (Limbs (Expr n))) fun r => 0 < r.lo.occurrences := by
  rw [sub_of_var hmodulus (.inl ha)]
  exact subVar_builds a b modulus

/-! ### Comparison -/

def sumExprs (a b : Limbs (Expr n)) : Limbs (Expr n) :=
  ⟨a.lo + b.lo, a.mid + b.mid, a.hi + b.hi⟩

def sumDigits (a b : Limbs Nat) : Limbs ℤ :=
  ⟨a.lo + b.lo, a.mid + b.mid, a.hi + b.hi⟩

theorem total_sumDigits (a b : Limbs Nat) : (sumDigits a b).total = a.toNat + b.toNat := by
  simp only [sumDigits, total, toNat, base_eq]
  push_cast
  ring

theorem small_sumDigits {a b : Limbs Nat} (ha : a.InRange) (hb : b.InRange)
    {carryLo carryMid : ℤ} (hcarryLo : |carryLo| ≤ 1) (hcarryMid : |carryMid| ≤ 1) :
    Small (sumDigits a b) carryLo carryMid := by
  refine ⟨?_, hcarryLo, hcarryMid⟩
  obtain ⟨halo, hamid, hahi⟩ := ha
  obtain ⟨hblo, hbmid, hbhi⟩ := hb
  simp only [sumDigits, toList, List.mem_cons, List.not_mem_nil, or_false, forall_eq_or_imp,
    forall_eq, abs_le]
  omega

theorem assertLessVar_eq (x : Limbs (Expr n)) (bound : Nat) :
    (assertLessVar x bound : Builder n σ Unit) = (do
      let gap := ofNat (Binary.twoPow bits - bound)
      let (carryLo, carryMid, lo, mid, hi) :
          BoolVar n × BoolVar n × Expr n × Expr n × Expr n ← compute do
        let (carryLo, carryMid, sum) := sumWithCarries (← x.values) gap
        return (carryLo, carryMid, .ofNat sum.lo, .ofNat sum.mid, .ofNat sum.hi)
      assertNormalized (sumExprs x (constant (Binary.twoPow bits - bound))) carryLo.expr
        carryMid.expr ⟨lo, mid, hi⟩) := by
  simp only [assertLessVar, assertNormalized, assertDigits, sumExprs, constant, bind_assoc]

theorem assertLessVar_ensures [PastaPrime n] (x : Limbs (Expr n)) {bound : Nat}
    (hpos : 0 < bound) (hbound : bound ≤ 2 ^ 264) :
    Ensures ρ (assertLessVar x bound : Builder n σ Unit)
      fun _ => (x.eval ρ).InRange → (x.eval ρ).toNat < bound := by
  have hgap : Binary.twoPow bits - bound < 2 ^ 264 := by
    rw [twoPow_bits]
    omega
  rw [assertLessVar_eq]
  refine .bind (.compute fun r => CircuitType.check_pair_ensures
    (CircuitType.check_bool_ensures r.1) (CircuitType.check_pair_ensures
      (CircuitType.check_bool_ensures r.2.1) (CircuitType.check_pair_ensures
        (CircuitType.check_expr_ensures r.2.2.1) (CircuitType.check_exprs_ensures r.2.2.2)))) ?_
  rintro ⟨carryLo, carryMid, lo, mid, hi⟩
  refine (assertNormalized_ensures _ ⟨lo, mid, hi⟩ carryLo.expr carryMid.expr).mono ?_
  rintro _ ⟨hrange, hnormalizes⟩ ⟨⟨u, hu⟩, ⟨v, hv⟩, -⟩ hx
  have hcarry : ∀ w : Bool, |(w.toNat : ℤ)| ≤ 1 := by decide
  have hcast : ∀ w : Bool, (Residue.ofBool w : Residue n) = ((w.toNat : ℤ) : Residue n) := by
    intro w
    rw [Int.cast_natCast, Residue.natCast_toNat]
  have hsmall := small_sumDigits hx (inRange_ofNat hgap) (hcarry u) (hcarry v)
  have hnormal := hnormalizes _ _ _ hsmall ?_ (hu.trans (hcast u)) (hv.trans (hcast v))
  · have htotal := hnormal.toNat_eq
    rw [total_sumDigits, toNat_ofNat, twoPow_bits] at htotal
    have hlt := hrange.toNat_lt
    omega
  · simp only [map, sumExprs, sumDigits, Expr.eval_plus, eval, constant, Expr.eval_const, Int.cast_add,
      Int.cast_natCast, Residue.natCast_val, Residue.ofNat_eq_natCast]

theorem assertLessVar_builds (x : Limbs (Expr n)) (bound : Nat) :
    Builds (assertLessVar x bound : Builder n σ Unit) fun _ => True := by
  rw [assertLessVar_eq]
  refine Builds.bind (P := fun r => ∀ limb ∈ toList ⟨r.2.2.1, r.2.2.2.1, r.2.2.2.2⟩,
    0 < limb.occurrences) (.compute fun r hr => ?_) ?_
  · refine Builds.bind (.assert _) fun _ _ => Builds.bind (.assert _) fun _ _ =>
      .pure fun limb hlimb => hr limb ?_
    exact List.mem_append_right _ (List.mem_append_right _ hlimb)
  · rintro ⟨carryLo, carryMid, lo, mid, hi⟩ hresult
    exact assertNormalized_builds hresult

theorem not_refused {bound : Nat} (hpos : 0 < bound) (hbound : bound ≤ 2 ^ 264) :
    ¬(bound = 0 ∨ Binary.twoPow bits < bound) := by
  rw [not_or, not_lt, twoPow_bits]
  exact ⟨hpos.ne', hbound⟩

theorem assertLess_ensures [PastaPrime n] (x : Limbs (Expr n)) (bound : Nat) :
    Ensures ρ (assertLess x bound : Builder n σ Unit)
      fun _ => (x.eval ρ).InRange → (x.eval ρ).toNat < bound := by
  unfold assertLess
  split
  · exact .failSetup _
  · next hbound =>
      rw [not_or, not_lt, twoPow_bits] at hbound
      split
      · next a ha =>
          split
          · next hlt => exact .pure fun _ => by rwa [constantValue?_eq_some ha]
          · exact .failSetup _
      · exact assertLessVar_ensures x (Nat.pos_of_ne_zero hbound.1) hbound.2

theorem assertLess_builds {x : Limbs (Expr n)} {bound : Nat} (hpos : 0 < bound)
    (hbound : bound ≤ 2 ^ 264) (hx : CircuitType.constantValue? (n := n) x = none) :
    Builds (assertLess x bound : Builder n σ Unit) fun _ => True := by
  unfold assertLess
  rw [if_neg (not_refused hpos hbound), hx]
  exact assertLessVar_builds x bound

end Limbs

end PallasCircuits
