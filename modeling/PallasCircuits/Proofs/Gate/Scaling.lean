import PallasCircuits.Gate.Scaling
import PallasCircuits.Proofs.Field.Ring

namespace PallasCircuits

variable {n : Nat} [Modulus n]

/-! Cells that hold zeros and ones, and the digits they stand for. -/

namespace ScalingGate

def digits (bits : List (Residue n)) : List Bool :=
  bits.map fun bit => bit = 1

@[simp] theorem length_digits (bits : List (Residue n)) :
    (digits bits).length = bits.length := by
  simp [digits]

theorem digits_map_ofBool (bits : List Bool) :
    digits (bits.map (Residue.ofBool (n := n))) = bits := by
  simp [digits, Function.comp_def, Residue.ofBool_eq_one_iff]

theorem map_ofBool_digits {bits : List (Residue n)} (h : bits.all isBit = true) :
    (digits bits).map Residue.ofBool = bits := by
  induction bits with
  | nil => rfl
  | cons bit bits ih =>
      simp only [List.all_cons, Bool.and_eq_true, isBit, decide_eq_true_iff] at h
      have hhead : Residue.ofBool (decide (bit = 1)) = bit := by
        rcases h.1 with rfl | rfl
        · simp [Residue.one_ne_zero.symm]
        · simp
      have htail := ih h.2
      simp only [digits, List.map_cons, List.map_map] at htail ⊢
      rw [hhead, htail]

theorem eq_map_ofBool_iff {bits : List (Residue n)} :
    bits = (digits bits).map Residue.ofBool ↔ ∀ bit ∈ bits, bit = 0 ∨ bit = 1 := by
  constructor
  · intro h bit hbit
    rw [h] at hbit
    obtain ⟨b, -, rfl⟩ := List.mem_map.mp hbit
    cases b with
    | false => exact .inl rfl
    | true => exact .inr rfl
  · intro h
    have hbits : bits.all isBit = true :=
      List.all_eq_true.mpr fun bit hbit => decide_eq_true (h bit hbit)
    exact (map_ofBool_digits hbits).symm

theorem pack_map_ofBool (bits : List Bool) :
    pack (bits.map Residue.ofBool) = (Binary.ofDigits bits : Residue n) := by
  induction bits with
  | nil => simp
  | cons bit bits ih =>
      rw [List.map_cons, pack_cons, ih, Residue.double_eq, Binary.ofDigits_cons]
      cases bit with
      | false => simp
      | true =>
          simp only [Residue.ofBool_true, Bool.toNat_true]
          push_cast
          ring

end ScalingGate

end PallasCircuits
