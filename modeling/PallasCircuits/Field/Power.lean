import PallasCircuits.Field.Residue

namespace PallasCircuits.Residue

variable {n : Nat} [Modulus n]

/-! Powers, and what they decide when `n` is prime. -/

def pow (a : Residue n) (k : Nat) : Residue n :=
  Binary.ladder square (· * a) 1 k

instance : Pow (Residue n) Nat := ⟨pow⟩

def inv? (a : Residue n) : Option (Residue n) :=
  if a = 0 then none else some (a ^ (n - 2))

def invOrZero (a : Residue n) : Residue n :=
  a.inv?.getD 0

def legendre (a : Residue n) : Int :=
  let power := a ^ ((n - 1) / 2)
  if power = 0 then 0 else if power = 1 then 1 else -1

def isSquare (a : Residue n) : Bool :=
  a.legendre != -1

@[simp] theorem inv?_zero : (0 : Residue n).inv? = none := rfl

theorem inv?_eq_none_iff (a : Residue n) : a.inv? = none ↔ a = 0 := by
  unfold inv?
  split <;> simp_all

@[simp] theorem invOrZero_zero : (0 : Residue n).invOrZero = 0 := rfl

end PallasCircuits.Residue
