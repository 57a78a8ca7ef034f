import PallasCircuits.Constraint
import PallasCircuits.Proofs.Expr
import PallasCircuits.Proofs.Gate.Scaling

namespace PallasCircuits

/-! What the constraints say about the values of their cells. -/

section

variable {n : Nat} [Modulus n]

def Coordinates.eval (ρ : Nat → Residue n) (P : Coordinates (Expr n)) :
    Coordinates (Residue n) :=
  ⟨P.x.eval ρ, P.y.eval ρ⟩

def AdditionGate.eval (ρ : Nat → Residue n) (gate : AdditionGate (Expr n)) :
    AdditionGate (Residue n) :=
  ⟨gate.left.eval ρ, gate.right.eval ρ, gate.sum.eval ρ, gate.isInfinity.eval ρ,
    gate.sameX.eval ρ, gate.slope.eval ρ, gate.infinityInverse.eval ρ,
    gate.differenceInverse.eval ρ⟩

end

namespace Constraint

@[simp] theorem ok_bind {α β : Type} (a : α) (f : α → Check β) :
    ((.ok a : Check α) >>= f) = f a := rfl

theorem bind_eq_ok {β : Type} {m : Check Unit} {f : Unit → Check β} {b : β} :
    (m >>= f) = .ok b ↔ m = .ok () ∧ f () = .ok b := by
  cases m with
  | ok _ => simp
  | error fault => exact iff_of_false (by rintro ⟨⟩) (by rintro ⟨⟨⟩, _⟩)

@[simp] theorem ensure_eq_ok {holds : Bool} {violation : Violation} :
    ensure holds violation = .ok () ↔ holds = true := by
  cases holds <;> simp [ensure]

theorem checkWidth_eq_ok {n bits : Nat} {x : Residue n} :
    checkWidth bits x = .ok () ↔ x.val < 2 ^ bits := by
  rw [checkWidth, ensure_eq_ok, decide_eq_true_iff]
  exact Binary.width_le_iff x.val bits

variable {n : Nat} [Modulus n] (ρ : Nat → Residue n)

@[simp] theorem read_total (x : Expr n) :
    read (fun i => some (ρ i)) x = .ok (x.eval ρ) := by
  simp [read, Expr.eval?_some]

@[simp] theorem traverse_read_total (P : Coordinates (Expr n)) :
    P.traverse (read fun i => some (ρ i)) = .ok (P.eval ρ) := by
  unfold Coordinates.traverse
  rw [read_total, read_total]
  rfl

theorem traverse_gate_read_total (gate : AdditionGate (Expr n)) :
    gate.traverse (read fun i => some (ρ i)) = .ok (gate.eval ρ) := by
  unfold AdditionGate.traverse
  simp only [read_total, traverse_read_total]
  rfl

theorem mapM_read_total (xs : List (Expr n)) :
    xs.mapM (read fun i => some (ρ i)) = .ok (xs.map (·.eval ρ)) := by
  induction xs with
  | nil => rfl
  | cons x xs ih =>
      rw [List.mapM_cons, read_total, ih]
      rfl

@[simp] theorem holds_boolean (x : Expr n) :
    (boolean x).Holds ρ ↔ x.eval ρ = 1 ∨ x.eval ρ = 0 := by
  simp [Holds, check]

@[simp] theorem holds_equal (x y : Expr n) :
    (equal x y).Holds ρ ↔ x.eval ρ = y.eval ρ := by
  simp [Holds, check]

@[simp] theorem holds_square (x y : Expr n) :
    (square x y).Holds ρ ↔ x.eval ρ ^ 2 = y.eval ρ := by
  simp [Holds, check]

@[simp] theorem holds_product (x y z : Expr n) :
    (product x y z).Holds ρ ↔ x.eval ρ * y.eval ρ = z.eval ρ := by
  simp [Holds, check]

theorem holds_addition (gate : AdditionGate (Expr n)) :
    (addition gate).Holds ρ ↔ (gate.eval ρ).flaw? = none := by
  simp only [Holds, check, traverse_gate_read_total]
  change checkAddition (gate.eval ρ) = .ok () ↔ _
  unfold checkAddition
  cases (gate.eval ρ).flaw? with
  | none => simp
  | some flaw => simp

@[simp] theorem holds_range64 (x : Expr n) :
    (range64 x).Holds ρ ↔ (x.eval ρ).val < 2 ^ 64 := by
  simp only [Holds, check, read_total]
  exact checkWidth_eq_ok

@[simp] theorem holds_limbs (lo mid hi : Expr n) :
    (limbs lo mid hi).Holds ρ ↔
      (lo.eval ρ).val < 2 ^ limbBits ∧ (mid.eval ρ).val < 2 ^ limbBits ∧
        (hi.eval ρ).val < 2 ^ limbBits := by
  simp [Holds, check, bind_eq_ok, checkWidth_eq_ok]

theorem holds_scaling (gate : ScalingGate (Expr n)) :
    (scaling gate).Holds ρ ↔ ∃ digits : List Bool,
      gate.bits.map (·.eval ρ) = digits.map Residue.ofBool ∧
      gate.scalar.eval ρ = Binary.ofDigits digits ∧
      (gate.base.eval ρ).doubleAndAdd? digits = some (gate.result.eval ρ) := by
  simp only [Holds, check, checkScaling, mapM_read_total, ok_bind, bind_eq_ok, ensure_eq_ok,
    read_total, traverse_read_total, decide_eq_true_iff]
  constructor
  · rintro ⟨hbits, hpack, hmatch⟩
    have hdouble : (gate.base.eval ρ).doubleAndAdd?
        (ScalingGate.digits (gate.bits.map (Expr.eval ρ))) = some (gate.result.eval ρ) := by
      split at hmatch
      · cases hmatch
      · next expected hexpected =>
          rw [ensure_eq_ok, decide_eq_true_iff] at hmatch
          exact hexpected.trans (congrArg some hmatch)
    refine ⟨_, ?_, ?_, hdouble⟩
    · exact (ScalingGate.map_ofBool_digits hbits).symm
    · rw [← ScalingGate.pack_map_ofBool, ScalingGate.map_ofBool_digits hbits, hpack]
  · rintro ⟨digits, hbits, hscalar, hdouble⟩
    rw [hbits]
    refine ⟨?_, ?_, ?_⟩
    · simp [ScalingGate.isBit, Residue.ofBool_eq_one_iff, Residue.ofBool_eq_zero_iff]
    · rw [ScalingGate.pack_map_ofBool, hscalar]
    · have hdigits := ScalingGate.digits_map_ofBool (n := n) digits
      unfold ScalingGate.digits at hdigits
      rw [hdigits, hdouble, ensure_eq_ok, decide_eq_true_iff]

theorem check_scaling_degenerate {gate : ScalingGate (Expr n)} {digits : List Bool}
    (hbits : gate.bits.map (·.eval ρ) = digits.map Residue.ofBool)
    (hscalar : gate.scalar.eval ρ = Binary.ofDigits digits)
    (hdegenerate : (gate.base.eval ρ).doubleAndAdd? digits = none) :
    (scaling gate).check (fun i => some (ρ i)) = .error (.violation (.scaling .degenerate)) := by
  have hdigits := ScalingGate.digits_map_ofBool (n := n) digits
  unfold ScalingGate.digits at hdigits
  have hboolean : (digits.map (Residue.ofBool (n := n))).all ScalingGate.isBit = true := by
    simp [ScalingGate.isBit, Residue.ofBool_eq_one_iff, Residue.ofBool_eq_zero_iff]
  simp only [check, checkScaling, mapM_read_total, ok_bind, read_total, traverse_read_total,
    hbits, hboolean, ScalingGate.pack_map_ofBool, hscalar, hdigits, hdegenerate, ensure]
  rfl

theorem check_limbs_tooWide {lo mid hi : Expr n} (hlo : (lo.eval ρ).val < 2 ^ limbBits)
    (hmid : (mid.eval ρ).val < 2 ^ limbBits) (hhi : 2 ^ limbBits ≤ (hi.eval ρ).val) :
    (limbs lo mid hi).check (fun i => some (ρ i)) =
      .error (.violation (.tooWide (hi.eval ρ).val limbBits)) := by
  have hwide : checkWidth limbBits (hi.eval ρ) =
      .error (.violation (.tooWide (hi.eval ρ).val limbBits)) := by
    have hfalse : ¬Binary.width (hi.eval ρ).val ≤ limbBits := by
      rw [Binary.width_le_iff, Binary.twoPow_eq]
      exact not_lt.mpr hhi
    rw [checkWidth, decide_eq_false hfalse]
    rfl
  simp only [check, read_total, ok_bind, checkWidth_eq_ok.mpr hlo, checkWidth_eq_ok.mpr hmid,
    hwide]

end Constraint

end PallasCircuits
