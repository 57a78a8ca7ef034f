namespace PallasCircuits.Binary

/-! Natural numbers as lists of binary digits, least significant first. -/

def width (k : Nat) : Nat :=
  if k = 0 then 0 else k.log2 + 1

def twoPow (k : Nat) : Nat :=
  Nat.pow 2 k

def digits (count k : Nat) : List Bool :=
  (List.range count).map k.testBit

def ofDigits : List Bool → Nat
  | [] => 0
  | bit :: bits => bit.toNat + 2 * ofDigits bits

def ladder {α : Type} (double step : α → α) (start : α) (k : Nat) : α :=
  (digits (width k) k).foldr
    (fun bit acc => if bit then step (double acc) else double acc) start

@[simp] theorem twoPow_zero : twoPow 0 = 1 := rfl

theorem twoPow_succ (k : Nat) : twoPow (k + 1) = 2 * twoPow k :=
  Nat.pow_succ'

theorem twoPow_pos (k : Nat) : 0 < twoPow k :=
  Nat.two_pow_pos k

@[simp] theorem width_zero : width 0 = 0 := rfl

@[simp] theorem length_digits (count k : Nat) : (digits count k).length = count := by
  simp [digits]

@[simp] theorem ofDigits_nil : ofDigits [] = 0 := rfl

@[simp] theorem ofDigits_cons (bit : Bool) (bits : List Bool) :
    ofDigits (bit :: bits) = bit.toNat + 2 * ofDigits bits := rfl

theorem width_le_iff (k bound : Nat) : width k ≤ bound ↔ k < twoPow bound := by
  unfold width
  split
  · next h => simp [h, twoPow_pos]
  · next h =>
      rw [Nat.succ_le_iff]
      exact Nat.log2_lt h

theorem digits_succ (count k : Nat) :
    digits (count + 1) k = k.testBit 0 :: digits count (k / 2) := by
  simp [digits, List.range_succ_eq_map, Function.comp_def, Nat.testBit_succ]

theorem ofDigits_digits (count k : Nat) :
    ofDigits (digits count k) = k % twoPow count := by
  induction count generalizing k with
  | zero => simp [digits, Nat.mod_one]
  | succ count ih =>
      rw [digits_succ, ofDigits_cons, ih, twoPow_succ, Nat.mod_mul]
      congr 1
      rcases Nat.mod_two_eq_zero_or_one k with h | h <;> simp [Nat.testBit_zero, h]

theorem ofDigits_lt (bits : List Bool) : ofDigits bits < twoPow bits.length := by
  induction bits with
  | nil => simp
  | cons bit bits ih =>
      have := bit.toNat_le
      simp only [ofDigits_cons, List.length_cons, twoPow_succ]
      omega

end PallasCircuits.Binary
