import PallasCircuits.Gadget.Range

namespace PallasCircuits

/-- Three digits in base `2 ^ 88`. The digits may be out of range. -/
structure Limbs (α : Type) where
  lo : α
  mid : α
  hi : α
deriving DecidableEq

namespace Limbs

def toList {α : Type} (x : Limbs α) : List α :=
  [x.lo, x.mid, x.hi]

def map {α β : Type} (f : α → β) (x : Limbs α) : Limbs β :=
  ⟨f x.lo, f x.mid, f x.hi⟩

def bits : Nat := 3 * limbBits

def base : Nat := Binary.twoPow limbBits

/-- The highest limb keeps all that does not fit into the others. -/
def ofNat (k : Nat) : Limbs Nat :=
  ⟨k % base, k / base % base, k / base / base⟩

def toNat (x : Limbs Nat) : Nat :=
  x.lo + base * (x.mid + base * x.hi)

theorem toNat_ofNat (k : Nat) : (ofNat k).toNat = k := by
  simp only [ofNat, toNat]
  rw [Nat.mod_add_div, Nat.mod_add_div]

open Builder Binary

variable {n : Nat} [Modulus n] {σ : Type}

def assertRange (x : Limbs (Expr n)) : Builder n σ Unit :=
  if x.toList.all (Expr.isShortConstant limbBits) then pure ()
  else assert (.limbs x.lo x.mid x.hi)

instance : CircuitType n (Limbs (Expr n)) Nat where
  Aux := Unit
  setupAux := ()
  size := 3
  toExprs x := x.toList
  aux _ := ()
  ofExprs?
    | [lo, mid, hi], _ => some ⟨lo, mid, hi⟩
    | _, _ => none
  encode k := ((ofNat k).map Residue.ofNat).toList
  valueAux _ := ()
  decode?
    | [lo, mid, hi], _ => some (toNat ⟨lo.val, mid.val, hi.val⟩)
    | _, _ => none
  check x := x.assertRange

def constant (k : Nat) : Limbs (Expr n) :=
  (ofNat k).map fun limb => .const (.ofNat limb)

def values (x : Limbs (Expr n)) : Reading n (Limbs Nat) := do
  return ⟨(← x.lo.value).val, (← x.mid.value).val, (← x.hi.value).val⟩

/-! ### Subtraction -/

/-- What a prover chooses to show `result = a - b + borrow · modulus`: the lower two
limbs of this equation hold up to the carries. -/
structure Difference where
  borrow : Bool
  result : Limbs Nat
  carryLo : Int
  carryMid : Int

/-- When even `a + modulus` is below `b` there is nothing to choose, and the equations
reject the zero. -/
def difference (a b : Limbs Nat) (modulus : Nat) : Difference :=
  let x := a.toNat
  let y := b.toNat
  let borrow : Bool := x < y
  let result := ofNat (if borrow then x + modulus - y else x - y)
  let m := ofNat (if borrow then modulus else 0)
  let carryLo : Int := (a.lo - b.lo + m.lo - result.lo) / base
  let carryMid : Int := (a.mid - b.mid + m.mid + carryLo - result.mid) / base
  ⟨borrow, result, carryLo, carryMid⟩

def assertCarry (x : Expr n) : Builder n σ Unit := do
  let squared ← x.square
  let cubed ← squared.mul x
  x.assertEqual cubed

def subVar (a b : Limbs (Expr n)) (modulus : Nat) : Builder n σ (Limbs (Expr n)) := do
  let (borrow, (lo, mid, hi), carryLo, carryMid) :
      BoolVar n × (Expr n × Expr n × Expr n) × Expr n × Expr n ← compute do
    let d := difference (← a.values) (← b.values) modulus
    return (d.borrow, (.ofNat d.result.lo, .ofNat d.result.mid, .ofNat d.result.hi),
      .ofInt d.carryLo, .ofInt d.carryMid)
  let result : Limbs (Expr n) := ⟨lo, mid, hi⟩
  assertCarry carryLo
  assertCarry carryMid
  let m : Limbs (Residue n) := (ofNat modulus).map .ofNat
  let weight : Residue n := .ofNat base
  result.lo.assertEqual (a.lo - b.lo + m.lo • borrow.expr - weight • carryLo)
  result.mid.assertEqual (a.mid - b.mid + m.mid • borrow.expr + carryLo - weight • carryMid)
  result.hi.assertEqual (a.hi - b.hi + m.hi • borrow.expr + carryMid)
  result.assertRange
  return result

/-- A number below `2 ^ 264` that is `a - b` modulo `modulus`; not always the least. -/
def sub (a b : Limbs (Expr n)) (modulus : Nat) : Builder n σ (Limbs (Expr n)) :=
  if bits < width modulus then
    failSetup (.bitLength (width modulus) bits)
  else
    match CircuitType.constantValue? (n := n) a, CircuitType.constantValue? (n := n) b with
    | some x, some y =>
        if modulus = 0 then throw .abort
        else return constant ((x + modulus - y % modulus) % modulus)
    | _, _ => subVar a b modulus

/-! ### Comparison -/

def sumWithCarries (a b : Limbs Nat) : Bool × Bool × Limbs Nat :=
  let lo := a.lo + b.lo
  let carryLo : Bool := base ≤ lo
  let mid := a.mid + b.mid + carryLo.toNat
  let carryMid : Bool := base ≤ mid
  let hi := a.hi + b.hi + carryMid.toNat
  (carryLo, carryMid, ⟨lo % base, mid % base, hi⟩)

/-- Adding `2 ^ 264 - bound` leaves the sum within three limbs just if `x < bound`. -/
def assertLessVar (x : Limbs (Expr n)) (bound : Nat) : Builder n σ Unit := do
  let gap := ofNat (twoPow bits - bound)
  let (carryLo, carryMid, lo, mid, hi) :
      BoolVar n × BoolVar n × Expr n × Expr n × Expr n ← compute do
    let (carryLo, carryMid, sum) := sumWithCarries (← x.values) gap
    return (carryLo, carryMid, .ofNat sum.lo, .ofNat sum.mid, .ofNat sum.hi)
  let sum : Limbs (Expr n) := ⟨lo, mid, hi⟩
  let gap : Limbs (Expr n) := gap.map fun limb => .const (.ofNat limb)
  let weight : Residue n := .ofNat base
  sum.lo.assertEqual (x.lo + gap.lo - weight • carryLo.expr)
  sum.mid.assertEqual (x.mid + gap.mid + carryLo.expr - weight • carryMid.expr)
  sum.hi.assertEqual (x.hi + gap.hi + carryMid.expr)
  sum.assertRange

def assertLess (x : Limbs (Expr n)) (bound : Nat) : Builder n σ Unit :=
  if bound = 0 ∨ twoPow bits < bound then
    failSetup (.bitLength (width bound) bits)
  else
    match CircuitType.constantValue? (n := n) x with
    | some a => if a < bound then pure () else failSetup (.notBelow a bound)
    | none => x.assertLessVar bound

end Limbs

end PallasCircuits
