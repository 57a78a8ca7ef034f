import PallasCircuits.Binary

namespace PallasCircuits

class Modulus (n : Nat) : Prop where
  one_lt : 1 < n

structure Residue (n : Nat) where
  val : Nat
  isLt : val < n
deriving DecidableEq

namespace Residue

variable {n : Nat}

@[ext] theorem ext {a b : Residue n} (h : a.val = b.val) : a = b := by
  cases a
  cases b
  cases h
  rfl

variable [Modulus n]

def ofNat (k : Nat) : Residue n :=
  ⟨k % n, Nat.mod_lt k (Nat.lt_trans Nat.zero_lt_one Modulus.one_lt)⟩

instance : Inhabited (Residue n) := ⟨ofNat 0⟩

instance : Zero (Residue n) := ⟨ofNat 0⟩

instance : One (Residue n) := ⟨ofNat 1⟩

instance : NatCast (Residue n) := ⟨ofNat⟩

instance : Add (Residue n) := ⟨fun a b => ofNat (a.val + b.val)⟩

instance : Mul (Residue n) := ⟨fun a b => ofNat (a.val * b.val)⟩

instance : Neg (Residue n) := ⟨fun a => ofNat (n - a.val)⟩

instance : Sub (Residue n) := ⟨fun a b => ofNat (a.val + (n - b.val))⟩

def ofInt (k : Int) : Residue n :=
  if k < 0 then -ofNat k.natAbs else ofNat k.natAbs

def ofBool (b : Bool) : Residue n :=
  if b then 1 else 0

def twoPow (k : Nat) : Residue n :=
  ofNat (Binary.twoPow k)

def double (a : Residue n) : Residue n :=
  a + a

def square (a : Residue n) : Residue n :=
  a * a

instance : LT (Residue n) := ⟨fun a b => a.val < b.val⟩

instance (a b : Residue n) : Decidable (a < b) :=
  inferInstanceAs (Decidable (a.val < b.val))

instance : ToString (Residue n) := ⟨fun a => toString a.val⟩

def bytes (count : Nat) (a : Residue n) : List Nat :=
  (List.range count).map fun i => a.val / Binary.twoPow (8 * i) % 256

@[simp] theorem val_ofNat (k : Nat) : (ofNat k : Residue n).val = k % n := rfl

@[simp] theorem val_natCast (k : Nat) : (k : Residue n).val = k % n := rfl

@[simp] theorem val_zero : (0 : Residue n).val = 0 := Nat.zero_mod n

@[simp] theorem val_one : (1 : Residue n).val = 1 :=
  Nat.mod_eq_of_lt Modulus.one_lt

theorem one_ne_zero : (1 : Residue n) ≠ 0 :=
  fun h => Nat.one_ne_zero (by simpa using congrArg val h)

theorem val_add (a b : Residue n) : (a + b).val = (a.val + b.val) % n := rfl

theorem val_mul (a b : Residue n) : (a * b).val = a.val * b.val % n := rfl

theorem val_neg (a : Residue n) : (-a).val = (n - a.val) % n := rfl

theorem val_sub (a b : Residue n) : (a - b).val = (a.val + (n - b.val)) % n := rfl

@[simp] theorem ofNat_val (a : Residue n) : ofNat a.val = a :=
  ext (Nat.mod_eq_of_lt a.isLt)

end Residue

end PallasCircuits
