import PallasCircuits.Gadget.PointScaling
import PallasCircuits.Proofs.Curve.Order

namespace PallasCircuits

/-- The high part for which `2 · hi + 1 + 2 ^ 255` is three times the order. -/
def PointVar.tripleHigh : Nat :=
  (3 * Pasta.q - 1 - Binary.twoPow 255) / 2

namespace DoubleAndAdd

open Coordinates Binary PointVar

/-! Where the double-and-add on Pallas is defined. Its additions are incomplete, so it depends
on which multiples of the base are opposite or equal, that is, on multiples of the order. -/

def multiplier (bits : List Bool) : Nat :=
  2 * ofDigits bits + 1 + 2 ^ bits.length

theorem two_le_multiplier (bits : List Bool) : 2 ≤ multiplier bits := by
  have := Nat.two_pow_pos bits.length
  unfold multiplier
  omega

theorem multiplier_cons (bit : Bool) (bits : List Bool) :
    multiplier (bit :: bits) + 1 = 2 * multiplier bits + 2 * bit.toNat := by
  unfold multiplier
  rw [ofDigits_cons, List.length_cons, pow_succ]
  omega

theorem multiplier_digits (count k : Nat) :
    multiplier (digits count k) = 2 * (k % 2 ^ count) + 1 + 2 ^ count := by
  rw [multiplier, ofDigits_digits, length_digits]
  rfl

/-- None of the additions on the way meets equal or opposite points: neither the base and
the multiple so far, nor the two summands of the second addition. -/
def Generic : List Bool → Prop
  | [] => True
  | bit :: bits => Generic bits ∧ ¬Pasta.q ∣ multiplier bits - 1 ∧
      ¬Pasta.q ∣ multiplier bits + 1 ∧ ¬Pasta.q ∣ multiplier (bit :: bits)

section

variable {P Q : Coordinates Fp} {A B : Pallas.Point}

theorem isSome_double? (hA : P.Locates A) : P.double?.isSome = true := by
  rw [Option.isSome_iff_ne_none, ne_eq, double?_eq_none_iff, Residue.double_eq]
  exact mul_ne_zero Residue.two_ne_zero (hA.y_ne_zero (Pallas.add_self_ne_zero hA.ne_zero))

theorem isSome_addIncomplete?_iff (hA : P.Locates A) (hB : Q.Locates B) :
    (P.addIncomplete? Q).isSome = true ↔ A + B ≠ 0 ∧ A ≠ B := by
  rw [Option.isSome_iff_ne_none, ne_eq, addIncomplete?_eq_none_iff, sub_eq_zero]
  constructor
  · intro hx
    refine ⟨fun hzero => hx ((hA.add_eq_zero_iff hB).mp hzero).1.symm, ?_⟩
    rintro rfl
    exact hx (congrArg Coordinates.x (hB.eq_ofPoint.trans hA.eq_ofPoint.symm))
  · rintro ⟨hopposite, hequal⟩ hx
    rcases hA.y_eq_or_neg hB hx.symm with hy | hy
    · obtain rfl : P = Q := Coordinates.ext hx.symm hy
      exact hequal (hA.unique hB)
    · exact hopposite ((hA.add_eq_zero_iff hB).mpr ⟨hx.symm, hy⟩)

theorem nsmul_multiplier_cons (A : Pallas.Point) (bit : Bool) (bits : List Bool) :
    multiplier (bit :: bits) • A =
      multiplier bits • A + (if bit then A else -A) + multiplier bits • A := by
  have hcons := multiplier_cons bit bits
  cases bit with
  | false =>
      have hsum : multiplier (false :: bits) + 1 = multiplier bits + multiplier bits := by
        simp only [Bool.toNat_false] at hcons
        omega
      have heq := congrArg (· • A) hsum
      simp only [add_nsmul, one_nsmul] at heq
      rw [if_neg Bool.false_ne_true, eq_sub_of_add_eq heq]
      abel
  | true =>
      have hsum : multiplier (true :: bits) = multiplier bits + 1 + multiplier bits := by
        simp only [Bool.toNat_true] at hcons
        omega
      rw [if_pos rfl, hsum, add_nsmul, add_nsmul, one_nsmul]

theorem step_ne_iff (hA : A ≠ 0) {k : Nat} (hk : 2 ≤ k) (bit : Bool) :
    (k • A + (if bit then A else -A) ≠ 0 ∧ k • A ≠ if bit then A else -A) ↔
      ¬Pasta.q ∣ k - 1 ∧ ¬Pasta.q ∣ k + 1 := by
  have hsub : k • A + -A = (k - 1) • A := by
    have hsplit : k = k - 1 + 1 := by omega
    rw [hsplit, succ_nsmul, add_neg_cancel_right, Nat.add_sub_cancel]
  have hminus : k • A = A ↔ Pasta.q ∣ k - 1 := by
    rw [← Pallas.nsmul_eq_zero_iff hA, ← hsub, ← sub_eq_add_neg, sub_eq_zero]
  have hplus : k • A + A = 0 ↔ Pasta.q ∣ k + 1 := by
    rw [← Pallas.nsmul_eq_zero_iff hA, succ_nsmul]
  cases bit with
  | false =>
      rw [if_neg Bool.false_ne_true, hsub, ne_eq, Pallas.nsmul_eq_zero_iff hA, ne_eq,
        eq_neg_iff_add_eq_zero, hplus]
  | true => rw [if_pos rfl, ne_eq, ne_eq, hplus, hminus, and_comm]

theorem isSome_doubleAndAdd?_iff (hA : P.Locates A) (bits : List Bool) :
    (P.doubleAndAdd? bits).isSome = true ↔ Generic bits := by
  induction bits with
  | nil => exact iff_of_true (isSome_double? hA) trivial
  | cons bit bits ih =>
      cases hacc : P.doubleAndAdd? bits with
      | none =>
          rw [hacc] at ih
          simpa [Coordinates.doubleAndAdd?, hacc, Generic] using
            fun h => absurd (ih.mpr h) (by simp)
      | some acc =>
          rw [hacc] at ih
          have hAcc := hA.doubleAndAdd? hacc
          have hstep := hA.digit bit
          have hfirst := isSome_addIncomplete?_iff hAcc hstep
          have hgeneric := step_ne_iff hA.ne_zero (two_le_multiplier bits) bit
          change _ ↔ Generic bits ∧ _ ∧ _ ∧ _
          rw [and_iff_right (ih.mp rfl), ← and_assoc, ← hgeneric,
            ← Pallas.nsmul_eq_zero_iff hA.ne_zero, nsmul_multiplier_cons]
          simp only [Coordinates.doubleAndAdd?, hacc, Option.bind_eq_bind, Option.bind_some]
          cases hnext : acc.addIncomplete? (if bit then P else -P) with
          | none =>
              rw [hnext] at hfirst
              exact iff_of_false (by simp) fun h => by simpa using hfirst.mpr h.1
          | some next =>
              rw [hnext] at hfirst
              have hNext := hAcc.addIncomplete? hstep hnext
              rw [Option.bind_some, isSome_addIncomplete?_iff hNext hAcc]
              exact ⟨fun h => ⟨hfirst.mp rfl, h.1⟩, fun h => ⟨h.2, by simpa using hstep.ne_zero⟩⟩

end

/-! ### Degenerate digits -/

def partialMultiplier (bits : List Bool) (count : Nat) : Nat :=
  2 ^ count + 2 * (ofDigits bits >>> (bits.length - count)) + 1

/-- An addition on the way is undefined: a multiple is infinity, or one that another digit
follows is the base or its opposite. -/
def Degenerate (bits : List Bool) : Prop :=
  (∃ j, 1 ≤ j ∧ j ≤ bits.length ∧ partialMultiplier bits j ≡ 0 [MOD Pasta.q]) ∨
    ∃ j < bits.length, partialMultiplier bits j ≡ 1 [MOD Pasta.q] ∨
      partialMultiplier bits j ≡ Pasta.q - 1 [MOD Pasta.q]

theorem partialMultiplier_eq (bits : List Bool) {count : Nat} (hcount : count ≤ bits.length) :
    partialMultiplier bits count = multiplier (bits.drop (bits.length - count)) := by
  have hlength : bits.length - (bits.length - count) = count := by omega
  rw [partialMultiplier, ofDigits_shiftRight, multiplier, List.length_drop, hlength]
  omega

theorem partialMultiplier_length (bits : List Bool) :
    partialMultiplier bits bits.length = multiplier bits := by
  rw [partialMultiplier_eq bits le_rfl, Nat.sub_self, List.drop_zero]

theorem partialMultiplier_cons (bit : Bool) (bits : List Bool) {count : Nat}
    (hcount : count ≤ bits.length) :
    partialMultiplier (bit :: bits) count = partialMultiplier bits count := by
  have hdrop : (bit :: bits).length - count = bits.length - count + 1 := by
    rw [List.length_cons]
    omega
  rw [partialMultiplier_eq _ (hcount.trans (Nat.le_succ _)), partialMultiplier_eq _ hcount, hdrop,
    List.drop_succ_cons]

theorem modEq_one_or_neg_one_iff {k : Nat} (hk : 2 ≤ k) :
    (k ≡ 1 [MOD Pasta.q] ↔ Pasta.q ∣ k - 1) ∧
      (k ≡ Pasta.q - 1 [MOD Pasta.q] ↔ Pasta.q ∣ k + 1) := by
  constructor
  · rw [Nat.ModEq.comm, Nat.modEq_iff_dvd' (by omega)]
  · have hself : Pasta.q - 1 + 1 ≡ 0 [MOD Pasta.q] := rfl
    rw [← Nat.modEq_zero_iff_dvd]
    constructor
    · intro h
      exact (h.add_right 1).trans hself
    · intro h
      exact Nat.ModEq.add_right_cancel' 1 (h.trans hself.symm)

theorem degenerate_cons (bit : Bool) (bits : List Bool) :
    Degenerate (bit :: bits) ↔ Degenerate bits ∨
      (Pasta.q ∣ multiplier bits - 1 ∨ Pasta.q ∣ multiplier bits + 1) ∨
      Pasta.q ∣ multiplier (bit :: bits) := by
  obtain ⟨hone, hminusOne⟩ := modEq_one_or_neg_one_iff (two_le_multiplier bits)
  rw [← hone, ← hminusOne, ← Nat.modEq_zero_iff_dvd, ← partialMultiplier_length (bit :: bits),
    ← partialMultiplier_length bits]
  constructor
  · rintro (⟨j, hpos, hle, hzero⟩ | ⟨j, hlt, hequal⟩)
    · rcases Nat.lt_or_eq_of_le hle with hlt | rfl
      · have hj := Nat.lt_succ_iff.mp hlt
        rw [partialMultiplier_cons bit bits hj] at hzero
        exact .inl (.inl ⟨j, hpos, hj, hzero⟩)
      · exact .inr (.inr hzero)
    · have hj := Nat.lt_succ_iff.mp hlt
      rw [partialMultiplier_cons bit bits hj] at hequal
      rcases Nat.lt_or_eq_of_le hj with hlt | rfl
      · exact .inl (.inr ⟨j, hlt, hequal⟩)
      · exact .inr (.inl hequal)
  · rintro ((⟨j, hpos, hle, hzero⟩ | ⟨j, hlt, hequal⟩) | hequal | hzero)
    · rw [← partialMultiplier_cons bit bits hle] at hzero
      exact .inl ⟨j, hpos, hle.trans (Nat.le_succ _), hzero⟩
    · rw [← partialMultiplier_cons bit bits hlt.le] at hequal
      exact .inr ⟨j, hlt.trans (Nat.lt_succ_self _), hequal⟩
    · rw [← partialMultiplier_cons bit bits le_rfl] at hequal
      exact .inr ⟨bits.length, Nat.lt_succ_self _, hequal⟩
    · exact .inl ⟨_, Nat.succ_pos _, le_rfl, hzero⟩

theorem generic_iff_not_degenerate (bits : List Bool) : Generic bits ↔ ¬Degenerate bits := by
  induction bits with
  | nil =>
      apply iff_of_true trivial
      rintro (⟨j, hpos, hle, -⟩ | ⟨j, hlt, -⟩)
      · exact absurd (hpos.trans hle) (by decide)
      · exact absurd hlt (Nat.not_lt_zero j)
  | cons bit bits ih => simp only [degenerate_cons, Generic, ih, not_or, and_assoc]

theorem doubleAndAdd?_eq_none_iff {A : Pallas.Point} (hA : A ≠ 0) (bits : List Bool) :
    (ofPoint A).doubleAndAdd? bits = none ↔ Degenerate bits := by
  rw [← Option.not_isSome_iff_eq_none, isSome_doubleAndAdd?_iff (locates_ofPoint hA),
    generic_iff_not_degenerate, not_not]

/-- Where it is defined, the double-and-add is a multiplication. -/
theorem doubleAndAdd?_of_not_degenerate {A : Pallas.Point} (hA : A ≠ 0) {bits : List Bool}
    (h : ¬Degenerate bits) :
    multiplier bits • A ≠ 0 ∧
      (ofPoint A).doubleAndAdd? bits = some (ofPoint (multiplier bits • A)) := by
  rw [← doubleAndAdd?_eq_none_iff hA] at h
  obtain ⟨R, hR⟩ := Option.ne_none_iff_exists'.mp h
  have hmultiple := (locates_ofPoint hA).doubleAndAdd? hR
  exact ⟨hmultiple.ne_zero, by rw [hR, hmultiple.eq_ofPoint]; rfl⟩

theorem doubleAndAdd?_eq_some_iff {A : Pallas.Point} (hA : A ≠ 0) (bits : List Bool)
    (R : Coordinates Fp) :
    (ofPoint A).doubleAndAdd? bits = some R ↔
      ¬Degenerate bits ∧ R = ofPoint (multiplier bits • A) := by
  constructor
  · intro h
    refine ⟨?_, ((locates_ofPoint hA).doubleAndAdd? h).eq_ofPoint⟩
    rw [← doubleAndAdd?_eq_none_iff hA, h]
    exact Option.some_ne_none R
  · rintro ⟨hdefined, rfl⟩
    exact (doubleAndAdd?_of_not_degenerate hA hdefined).2

/-! ### High parts -/

theorem Generic.of_lt {bits : List Bool} (h : multiplier bits < Pasta.q) : Generic bits := by
  induction bits with
  | nil => trivial
  | cons bit bits ih =>
      have hcons := multiplier_cons bit bits
      have htwo := two_le_multiplier bits
      refine ⟨ih (by omega), ?_, ?_, ?_⟩
      · exact Nat.not_dvd_of_pos_of_lt (by omega) (by omega)
      · exact Nat.not_dvd_of_pos_of_lt (by omega) (by omega)
      · exact Nat.not_dvd_of_pos_of_lt (by omega) h

/-- The high parts that the double-and-add cannot handle: two of them make an addition on
the way meet the base itself, and the third makes the result infinity. -/
theorem generic_digits_iff {hi : Nat} (hhi : hi < 2 ^ 254) :
    Generic (digits 255 hi) ↔
      hi ≠ degenerateHigh ∧ hi ≠ degenerateHigh - 1 ∧ hi ≠ tripleHigh := by
  have hq : Pasta.q = 2 ^ 254 + degenerateHigh := by decide
  have hsmall : degenerateHigh % 2 = 1 ∧ degenerateHigh < 2 ^ 126 := by decide
  have htriple : 2 * tripleHigh + 1 + 2 ^ 255 = 3 * Pasta.q := by decide
  have hdeep : Generic (digits 253 (hi / 2 / 2)) := by
    apply Generic.of_lt
    rw [multiplier_digits]
    omega
  rw [digits_succ, digits_succ, Generic, Generic, ← digits_succ, ← digits_succ, multiplier_digits,
    multiplier_digits, multiplier_digits, and_iff_right hdeep]
  have hdvd : ∀ k, 0 < k → k < 4 * Pasta.q →
      (Pasta.q ∣ k ↔ k = Pasta.q ∨ k = 2 * Pasta.q ∨ k = 3 * Pasta.q) := by
    intro k hpos hlt
    constructor
    · rintro ⟨c, rfl⟩
      have hc : c < 4 := by
        rw [Nat.mul_comm] at hlt
        exact Nat.lt_of_mul_lt_mul_right hlt
      interval_cases c <;> omega
    · rintro (rfl | rfl | rfl)
      · exact dvd_rfl
      · exact Dvd.intro_left 2 rfl
      · exact Dvd.intro_left 3 rfl
  rw [hdvd _ (by omega) (by omega), hdvd _ (by omega) (by omega), hdvd _ (by omega) (by omega),
    hdvd _ (by omega) (by omega), hdvd _ (by omega) (by omega), hdvd _ (by omega) (by omega)]
  omega

theorem doubleAndAdd?_eq_some {A : Pallas.Point} (hA : A ≠ 0) {hi : Nat} (hhi : hi < 2 ^ 254)
    (h : hi ≠ degenerateHigh ∧ hi ≠ degenerateHigh - 1 ∧ hi ≠ tripleHigh) :
    (2 * hi + 1 + 2 ^ 255) • A ≠ 0 ∧
      (ofPoint A).doubleAndAdd? (digits 255 hi) =
        some (ofPoint ((2 * hi + 1 + 2 ^ 255) • A)) := by
  have hdefined := (generic_iff_not_degenerate _).mp ((generic_digits_iff hhi).mpr h)
  have hmultiple := doubleAndAdd?_of_not_degenerate hA hdefined
  rwa [multiplier_digits, Nat.mod_eq_of_lt (by omega)] at hmultiple

theorem doubleAndAdd?_tripleHigh {A : Pallas.Point} (hA : A ≠ 0) :
    (ofPoint A).doubleAndAdd? (digits 255 tripleHigh) = none := by
  rw [← Option.not_isSome_iff_eq_none, isSome_doubleAndAdd?_iff (locates_ofPoint hA),
    generic_digits_iff (by decide)]
  simp

end DoubleAndAdd

end PallasCircuits
