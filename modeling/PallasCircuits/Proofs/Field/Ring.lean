import Mathlib.Data.ZMod.Basic
import Mathlib.FieldTheory.Finite.Basic
import Mathlib.Tactic
import PallasCircuits.Field.Pasta
import PallasCircuits.Proofs.Binary

namespace PallasCircuits

/-! Residues form a commutative ring, and a field when the modulus is prime. The operations
are the ones circuits compute with; only their laws are carried over from `ZMod`. -/

namespace Residue

variable {n : Nat} [Modulus n]

instance : SMul ℕ (Residue n) := ⟨fun k a => ofNat k * a⟩

instance : SMul ℤ (Residue n) := ⟨fun k a => ofInt k * a⟩

instance : IntCast (Residue n) := ⟨ofInt⟩

def toZMod (a : Residue n) : ZMod n := (a.val : ZMod n)

omit [Modulus n] in
theorem toZMod_injective : Function.Injective (toZMod (n := n)) := by
  intro a b hab
  apply ext
  have hmod := (ZMod.natCast_eq_natCast_iff' a.val b.val n).mp hab
  rwa [Nat.mod_eq_of_lt a.isLt, Nat.mod_eq_of_lt b.isLt] at hmod

theorem toZMod_ofNat (k : Nat) : (ofNat k : Residue n).toZMod = (k : ZMod n) := by
  simp [toZMod]

theorem toZMod_zero : (0 : Residue n).toZMod = 0 := by
  simp [toZMod]

theorem toZMod_one : (1 : Residue n).toZMod = 1 := by
  simp [toZMod]

theorem toZMod_add (a b : Residue n) : (a + b).toZMod = a.toZMod + b.toZMod := by
  simp [toZMod, val_add]

theorem toZMod_mul (a b : Residue n) : (a * b).toZMod = a.toZMod * b.toZMod := by
  simp [toZMod, val_mul]

theorem toZMod_square (a : Residue n) : a.square.toZMod = a.toZMod ^ 2 := by
  rw [sq, ← toZMod_mul]
  rfl

theorem toZMod_neg (a : Residue n) : (-a).toZMod = -a.toZMod := by
  have hle : a.val ≤ n := a.isLt.le
  simp [toZMod, val_neg, Nat.cast_sub hle]

theorem toZMod_sub (a b : Residue n) : (a - b).toZMod = a.toZMod - b.toZMod := by
  have hle : b.val ≤ n := b.isLt.le
  simp [toZMod, val_sub, Nat.cast_sub hle, sub_eq_add_neg]

theorem toZMod_ofInt (k : ℤ) : (ofInt k : Residue n).toZMod = (k : ZMod n) := by
  unfold ofInt
  split
  · next hneg =>
      rw [toZMod_neg, toZMod_ofNat, ← Int.cast_natCast, Int.ofNat_natAbs_of_nonpos hneg.le]
      simp
  · next hpos =>
      rw [toZMod_ofNat, ← Int.cast_natCast, Int.natAbs_of_nonneg (not_lt.mp hpos)]

theorem toZMod_pow (a : Residue n) (k : Nat) : (a ^ k).toZMod = a.toZMod ^ k := by
  refine Binary.ladder_induction (motive := fun (acc : Residue n) j => acc.toZMod = a.toZMod ^ j) ?_ ?_ ?_ k
  · rw [toZMod_one, pow_zero]
  · intro acc j hacc
    rw [toZMod_square, hacc, ← pow_mul']
  · intro acc j hacc
    rw [toZMod_mul, hacc, pow_succ]

instance : CommRing (Residue n) :=
  toZMod_injective.commRing toZMod toZMod_zero toZMod_one toZMod_add toZMod_mul toZMod_neg
    toZMod_sub (fun k a => by
      change (ofNat k * a).toZMod = _
      rw [toZMod_mul, toZMod_ofNat, nsmul_eq_mul]) (fun k a => by
      change (ofInt k * a).toZMod = _
      rw [toZMod_mul, toZMod_ofInt, zsmul_eq_mul]) toZMod_pow toZMod_ofNat toZMod_ofInt

@[simp] theorem ofNat_eq_natCast (k : Nat) : (ofNat k : Residue n) = (k : Residue n) := rfl

@[simp] theorem double_eq (a : Residue n) : a.double = 2 * a := (two_mul a).symm

@[simp] theorem square_eq (a : Residue n) : a.square = a ^ 2 := (sq a).symm

@[simp] theorem twoPow_eq (k : Nat) : (twoPow k : Residue n) = 2 ^ k := by
  have : (twoPow k : Residue n) = ((2 ^ k : Nat) : Residue n) := rfl
  rw [this]
  push_cast
  rfl

@[simp] theorem ofBool_true : (ofBool true : Residue n) = 1 := rfl

@[simp] theorem ofBool_false : (ofBool false : Residue n) = 0 := rfl

theorem val_ofBool (b : Bool) : (ofBool b : Residue n).val = b.toNat := by
  cases b <;> simp

theorem natCast_toNat (b : Bool) : ((b.toNat : Nat) : Residue n) = ofBool b := by
  cases b <;> simp

theorem ofBool_eq_one_iff (b : Bool) : (ofBool b : Residue n) = 1 ↔ b = true := by
  cases b with
  | false => simpa using one_ne_zero.symm
  | true => simp

theorem ofBool_eq_zero_iff (b : Bool) : (ofBool b : Residue n) = 0 ↔ b = false := by
  cases b with
  | false => simp
  | true => simpa using one_ne_zero

theorem ofBool_injective : Function.Injective (ofBool : Bool → Residue n) := by
  intro a b h
  have hone := ofBool_eq_one_iff (n := n) a
  rw [h, ofBool_eq_one_iff] at hone
  exact Bool.eq_iff_iff.mpr hone.symm

theorem sum_ofBool (bits : List Bool) :
    (bits.map (ofBool (n := n))).sum = (bits.count true : Nat) := by
  induction bits with
  | nil => simp
  | cons bit bits ih =>
      rw [List.map_cons, List.sum_cons, ih]
      cases bit <;> simp [add_comm]

@[simp] theorem natCast_val (a : Residue n) : ((a.val : Nat) : Residue n) = a := ofNat_val a

theorem natCast_eq_natCast_iff (j k : Nat) :
    (j : Residue n) = (k : Residue n) ↔ j % n = k % n :=
  ⟨fun h => congrArg val h, fun h => ext h⟩

theorem sum_ofBool_eq_natCast_iff {bits : List Bool} {k : Nat} (hlength : bits.length < n)
    (hk : k < n) : (bits.map (ofBool (n := n))).sum = (k : Residue n) ↔ bits.count true = k := by
  rw [sum_ofBool, natCast_eq_natCast_iff,
    Nat.mod_eq_of_lt (List.count_le_length.trans_lt hlength), Nat.mod_eq_of_lt hk]

theorem decide_sum_ofBool_eq_zero {bits : List Bool} (hlength : bits.length < n) :
    decide ((bits.map (ofBool (n := n))).sum = 0) = !bits.any id := by
  rw [Bool.eq_iff_iff, decide_eq_true_iff, Bool.not_eq_true', ← Nat.cast_zero,
    sum_ofBool_eq_natCast_iff hlength (Nat.zero_lt_of_lt hlength), List.count_eq_zero]
  simp

theorem decide_sum_ofBool_eq_length {bits : List Bool} (hlength : bits.length < n) :
    decide ((bits.map (ofBool (n := n))).sum = (bits.length : Residue n)) = bits.all id := by
  rw [Bool.eq_iff_iff, decide_eq_true_iff, sum_ofBool_eq_natCast_iff hlength hlength,
    List.count_eq_length, List.all_eq_true]
  exact forall₂_congr fun _ _ => eq_comm

theorem natCast_mod_add_mul_div (a : Residue n) (m : Nat) :
    ((a.val % m : Nat) : Residue n) + (m : Residue n) * ((a.val / m : Nat) : Residue n) = a := by
  rw [← Nat.cast_mul, ← Nat.cast_add, Nat.mod_add_div, natCast_val]

theorem ofBool_testBit_add_two_mul (a : Residue n) :
    ofBool (a.val.testBit 0) + ((2 : Nat) : Residue n) * ((a.val / 2 : Nat) : Residue n) = a := by
  rw [← natCast_toNat, Nat.toNat_testBit, pow_zero, Nat.div_one, natCast_mod_add_mul_div]

theorem val_natCast_of_lt {k : Nat} (hk : k < n) : (k : Residue n).val = k := by
  rw [val_natCast, Nat.mod_eq_of_lt hk]

theorem val_natCast_of_le_val {k : Nat} {a : Residue n} (hk : k ≤ a.val) :
    (k : Residue n).val = k :=
  val_natCast_of_lt (hk.trans_lt a.isLt)

theorem val_eq_iff_eq_natCast {a : Residue n} {k : Nat} (hk : k < n) :
    a.val = k ↔ a = (k : Residue n) := by
  constructor
  · intro h
    rw [← h, natCast_val]
  · intro h
    rw [h, val_natCast_of_lt hk]

end Residue

end PallasCircuits
