import PallasCircuits.Field.Power

namespace PallasCircuits

/-! The two prime fields of the Pasta cycle. Each is the scalar field of the curve
defined over the other. -/

namespace Pasta

def p : Nat :=
  28948022309329048855892746252171976963363056481941560715954676764349967630337

def q : Nat :=
  28948022309329048855892746252171976963363056481941647379679742748393362948097

instance : Modulus p := ⟨by decide⟩

instance : Modulus q := ⟨by decide⟩

def generator : Nat := 5

def twosIn (fuel k : Nat) : Nat :=
  match fuel with
  | 0 => 0
  | fuel + 1 => if k = 0 ∨ k % 2 = 1 then 0 else twosIn fuel (k / 2) + 1

def twoAdicity (n : Nat) : Nat :=
  twosIn (Binary.width (n - 1)) (n - 1)

/-- A root of unity whose order is the two-part of the multiplicative group's order. -/
def twoAdicRoot (n : Nat) [Modulus n] : Residue n :=
  (generator : Residue n) ^ ((n - 1) / Binary.twoPow (twoAdicity n))

end Pasta

abbrev Fp := Residue Pasta.p

abbrev Fq := Residue Pasta.q

end PallasCircuits
