import Mathlib.Algebra.Ring.Nat
import PallasCircuits.Binary

namespace PallasCircuits.Binary

/-! What a ladder computes, and the digits of sums. -/

theorem twoPow_eq (k : Nat) : twoPow k = 2 ^ k := rfl

theorem lt_width_iff (j k : Nat) : j < width k ↔ 2 ^ j ≤ k := by
  rw [← not_le, width_le_iff, not_lt, twoPow_eq]

theorem ofDigits_eq_zero {bits : List Bool} (h : ∀ bit ∈ bits, bit = false) :
    ofDigits bits = 0 := by
  induction bits with
  | nil => rfl
  | cons bit bits ih =>
      obtain ⟨rfl, hbits⟩ := List.forall_mem_cons.mp h
      rw [ofDigits_cons, ih hbits]
      rfl

theorem eq_false_of_mem_drop {length count k : Nat} (hk : k < 2 ^ count) :
    ∀ bit ∈ (digits length k).drop count, bit = false := by
  intro bit hbit
  obtain ⟨i, hi, rfl⟩ := List.mem_iff_getElem.mp hbit
  simp only [digits, List.getElem_drop, List.getElem_map, List.getElem_range]
  exact Nat.testBit_lt_two_pow (Nat.lt_of_lt_of_le hk (Nat.pow_le_pow_right (by decide) (by omega)))

theorem ofDigits_lt_of_drop {bits : List Bool} {count : Nat}
    (h : ∀ bit ∈ bits.drop count, bit = false) : ofDigits bits < 2 ^ count := by
  induction count generalizing bits with
  | zero => simpa using ofDigits_eq_zero h
  | succ count ih =>
      cases bits with
      | nil => exact Nat.two_pow_pos _
      | cons bit bits =>
          have hlt : ofDigits bits < 2 ^ count := ih h
          have hbit := bit.toNat_le
          rw [ofDigits_cons, Nat.pow_succ]
          omega

theorem ofDigits_shiftRight (bits : List Bool) (count : Nat) :
    ofDigits bits >>> count = ofDigits (bits.drop count) := by
  induction count generalizing bits with
  | zero => rfl
  | succ count ih =>
      cases bits with
      | nil => exact Nat.zero_shiftRight _
      | cons bit bits =>
          have hbit := bit.toNat_le
          have hhalf : (bit.toNat + 2 * ofDigits bits) / 2 = ofDigits bits := by omega
          rw [List.drop_succ_cons, ← ih bits, ofDigits_cons, Nat.add_comm count 1,
            Nat.shiftRight_add, Nat.shiftRight_one, hhalf]

section

variable {α : Type} {double step : α → α} {start : α} {motive : α → Nat → Prop}

theorem foldr_digits_induction (hstart : motive start 0)
    (hdouble : ∀ acc j, motive acc j → motive (double acc) (2 * j))
    (hstep : ∀ acc j, motive acc j → motive (step acc) (j + 1)) (count k : Nat) :
    motive ((digits count k).foldr
      (fun bit acc => if bit then step (double acc) else double acc) start)
      (k % twoPow count) := by
  induction count generalizing k with
  | zero => simpa [digits, Nat.mod_one] using hstart
  | succ count ih =>
      have hrest := hdouble _ _ (ih (k / 2))
      rw [digits_succ, List.foldr_cons, twoPow_succ, Nat.mod_mul]
      rcases Nat.mod_two_eq_zero_or_one k with hk | hk
      · simpa [Nat.testBit_zero, hk] using hrest
      · simpa [Nat.testBit_zero, hk, Nat.add_comm] using hstep _ _ hrest

theorem ladder_induction (hstart : motive start 0)
    (hdouble : ∀ acc j, motive acc j → motive (double acc) (2 * j))
    (hstep : ∀ acc j, motive acc j → motive (step acc) (j + 1)) (k : Nat) :
    motive (ladder double step start k) k := by
  have hk : k < twoPow (width k) := (width_le_iff k _).mp le_rfl
  have hfold := foldr_digits_induction hstart hdouble hstep (width k) k
  rwa [Nat.mod_eq_of_lt hk] at hfold

end

end PallasCircuits.Binary
