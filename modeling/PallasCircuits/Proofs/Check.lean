import PallasCircuits.Proofs.Constraint
import PallasCircuits.Proofs.Scope

namespace PallasCircuits

variable {n : Nat} [Modulus n]

/-! Checking a constraint while only some variables have values. -/

namespace Constraint

@[simp, grind =] def Below (k : Nat) : Constraint n → Prop
  | boolean x => x.Below k
  | equal x y => x.Below k ∧ y.Below k
  | square x y => x.Below k ∧ y.Below k
  | product x y z => x.Below k ∧ y.Below k ∧ z.Below k
  | addition gate =>
      gate.left.Below k ∧ gate.right.Below k ∧ ∀ x ∈ gate.chosen, x.Below k
  | scaling gate =>
      gate.base.Below k ∧ gate.scalar.Below k ∧ (∀ x ∈ gate.bits, x.Below k) ∧
        gate.result.Below k
  | range64 x => x.Below k
  | limbs lo mid hi => lo.Below k ∧ mid.Below k ∧ hi.Below k

def operands : Constraint n → List (Expr n)
  | boolean x => [x]
  | equal x y => [x, y]
  | square x y => [x, y]
  | product x y z => [x, y, z]
  | addition gate =>
      gate.left.x :: gate.left.y :: gate.right.x :: gate.right.y :: gate.chosen
  | scaling gate =>
      gate.base.x :: gate.base.y :: gate.scalar :: gate.result.x :: gate.result.y :: gate.bits
  | range64 x => [x]
  | limbs lo mid hi => [lo, mid, hi]

omit [Modulus n] in
theorem below_iff {c : Constraint n} {k : Nat} : c.Below k ↔ ∀ x ∈ c.operands, x.Below k := by
  cases c with
  | addition gate =>
      simp only [Below, Coordinates.Below, operands, List.forall_mem_cons, and_assoc]
  | scaling gate =>
      simp only [Below, Coordinates.Below, operands, List.forall_mem_cons, and_assoc]
      exact and_congr_right fun _ => and_congr_right fun _ => and_congr_right fun _ =>
        ⟨fun ⟨hbits, hx, hy⟩ => ⟨hx, hy, hbits⟩, fun ⟨hx, hy, hbits⟩ => ⟨hbits, hx, hy⟩⟩
  | _ => simp [operands]

omit [Modulus n] in
theorem Below.mono {c : Constraint n} {j k : Nat} (h : c.Below j) (hjk : j ≤ k) :
    c.Below k :=
  below_iff.mpr fun x hx => (below_iff.mp h x hx).mono hjk

theorem check_congr_operands {lookup lookup' : Nat → Option (Residue n)} {c : Constraint n}
    (h : ∀ x ∈ c.operands, x.eval? lookup = x.eval? lookup') :
    c.check lookup = c.check lookup' := by
  have hread : ∀ x ∈ c.operands, read lookup x = read lookup' x := by
    intro x hx
    rw [read, read, h x hx]
  cases c with
  | addition gate =>
      simp only [operands, AdditionGate.chosen, List.forall_mem_cons] at hread
      obtain ⟨hlx, hly, hrx, hry, hsame, hinf, hinfz, hdiff, hslope, hx, hy, -⟩ := hread
      simp only [check, AdditionGate.traverse, Coordinates.traverse, hlx, hly, hrx, hry, hsame,
        hinf, hinfz, hdiff, hslope, hx, hy]
  | scaling gate =>
      simp only [operands, List.forall_mem_cons] at hread
      obtain ⟨hbx, hby, hscalar, hrx, hry, hbits⟩ := hread
      have hmapM : ∀ xs : List (Expr n), (∀ x ∈ xs, read lookup x = read lookup' x) →
          xs.mapM (read lookup) = xs.mapM (read lookup') := by
        intro xs hxs
        induction xs with
        | nil => rfl
        | cons x xs ih =>
            obtain ⟨hx, hxs⟩ := List.forall_mem_cons.mp hxs
            rw [List.mapM_cons, List.mapM_cons, hx, ih hxs]
      simp only [check, checkScaling, Coordinates.traverse, hmapM _ hbits, hscalar, hbx, hby,
        hrx, hry]
  | _ =>
      simp only [operands, List.forall_mem_cons] at hread
      simp only [check, hread]

theorem check_congr {lookup lookup' : Nat → Option (Residue n)} {k : Nat}
    (hlookup : ∀ i < k, lookup i = lookup' i) {c : Constraint n} (hc : c.Below k) :
    c.check lookup = c.check lookup' :=
  check_congr_operands fun x hx => Expr.eval?_congr hlookup (below_iff.mp hc x hx)

def Readable (lookup : Nat → Option (Residue n)) (c : Constraint n) : Prop :=
  ∀ x ∈ c.operands, (x.eval? lookup).isSome = true

instance (lookup : Nat → Option (Residue n)) (c : Constraint n) : Decidable (c.Readable lookup) :=
  inferInstanceAs (Decidable (∀ x ∈ c.operands, _))

instance (ρ : Nat → Residue n) (c : Constraint n) : Decidable (c.Holds ρ) :=
  inferInstanceAs (Decidable (_ = _))

theorem Below.readable {lookup : Nat → Option (Residue n)} {c : Constraint n} {k : Nat}
    (h : c.Below k) (hlookup : ∀ i < k, (lookup i).isSome = true) : c.Readable lookup :=
  fun x hx => Expr.eval?_isSome (below_iff.mp h x hx) hlookup

/-! ### Checks that fail -/

/-- Fails only because of the values it looks at. -/
def Decides {α : Type} (m : Check α) : Prop :=
  ∀ fault, m = .error fault → fault.isViolation = true

namespace Decides

variable {α β : Type}

theorem ok (a : α) : Decides (.ok a : Check α) := by
  rintro _ ⟨⟩

theorem violation (violation : Violation) : Decides (.error (.violation violation) : Check α) := by
  rintro _ ⟨⟩
  rfl

theorem bind {m : Check α} {f : α → Check β} (hm : Decides m) (hf : ∀ a, Decides (f a)) :
    Decides (m >>= f) := by
  intro fault h
  cases hrun : m with
  | error fault' =>
      rw [hrun] at h
      cases h
      exact hm fault hrun
  | ok a =>
      rw [hrun] at h
      exact hf a fault h

theorem ensure (holds : Bool) (v : Violation) : Decides (ensure holds v) := by
  cases holds with
  | false => exact violation v
  | true => exact ok ()

end Decides

theorem decides_check_total (ρ : Nat → Residue n) (c : Constraint n) :
    Decides (c.check fun i => some (ρ i)) := by
  cases c with
  | addition gate =>
      simp only [check, traverse_gate_read_total, ok_bind]
      unfold checkAddition
      cases (gate.eval ρ).flaw? with
      | none => exact .ok ()
      | some flaw => exact .violation _
  | scaling gate =>
      simp only [check, checkScaling, mapM_read_total, read_total, traverse_read_total, ok_bind]
      refine (Decides.ensure _ _).bind fun _ => (Decides.ensure _ _).bind fun _ => ?_
      cases (gate.base.eval ρ).doubleAndAdd? ((gate.bits.map (Expr.eval ρ)).map (· = 1)) with
      | none => exact .violation _
      | some expected => exact .ensure _ _
  | limbs lo mid hi =>
      simp only [check, read_total, ok_bind]
      exact (Decides.ensure _ _).bind fun _ => (Decides.ensure _ _).bind fun _ => .ensure _ _
  | _ =>
      simp only [check, read_total, ok_bind]
      exact .ensure _ _

namespace Readable

variable {lookup : Nat → Option (Residue n)} {c : Constraint n}

theorem check_eq (h : c.Readable lookup) :
    c.check lookup = c.check fun i => some ((lookup i).getD 0) := by
  refine check_congr_operands fun x hx => ?_
  obtain ⟨a, ha⟩ := Option.isSome_iff_exists.mp (h x hx)
  have htotal : ∀ i a, lookup i = some a → some ((lookup i).getD 0) = some a := by
    intro i a hi
    rw [hi, Option.getD_some]
  rw [ha, Expr.eval?_of_extends htotal ha]

theorem decides (h : c.Readable lookup) : Decides (c.check lookup) := by
  rw [h.check_eq]
  exact decides_check_total _ c

theorem check_eq_ok (h : c.Readable lookup) :
    c.check lookup = .ok () ↔ c.Holds fun i => (lookup i).getD 0 := by
  rw [h.check_eq]
  rfl

end Readable

/-! ### Checks that succeed -/

def Demands {α : Type} (m : Check α) (P : Prop) : Prop :=
  ∀ a, m = .ok a → P

namespace Demands

variable {α β : Type} {P Q : Prop}

theorem bind {m : Check α} {f : α → Check β} (hm : Demands m P) (hf : ∀ a, Demands (f a) Q) :
    Demands (m >>= f) (P ∧ Q) := by
  intro b h
  cases hrun : m with
  | error fault =>
      rw [hrun] at h
      cases h
  | ok a =>
      rw [hrun] at h
      exact ⟨hm a hrun, hf a b h⟩

theorem left {m : Check α} (hm : Demands m P) (f : α → Check β) : Demands (m >>= f) P :=
  fun b h => (hm.bind (Q := True) (fun _ _ _ => trivial) b h).1

theorem right {m : Check α} {f : α → Check β} (hf : ∀ a, Demands (f a) Q) :
    Demands (m >>= f) Q :=
  fun b h => (bind (P := True) (fun _ _ => trivial) hf b h).2

theorem map {m : Check α} (f : α → β) (hm : Demands m P) : Demands (f <$> m) P := by
  rw [map_eq_pure_bind]
  exact hm.left _

theorem seq {m : Check (α → β)} {x : Check α} (hm : Demands m P) (hx : Demands x Q) :
    Demands (m <*> x) (P ∧ Q) := by
  rw [seq_eq_bind_map]
  exact hm.bind fun f => hx.map f

theorem mapM {f : α → Check β} {R : α → Prop} (hf : ∀ a, Demands (f a) (R a)) (xs : List α) :
    Demands (xs.mapM f) (∀ x ∈ xs, R x) := by
  induction xs with
  | nil => exact fun _ _ => List.forall_mem_nil R
  | cons x xs ih =>
      rw [List.mapM_cons, List.forall_mem_cons]
      exact (hf x).bind fun y => ih.left _

theorem traverse {f : α → Check β} {R : α → Prop} (hf : ∀ a, Demands (f a) (R a))
    (P : Coordinates α) : Demands (P.traverse f) (R P.x ∧ R P.y) :=
  ((hf P.x).map _).seq (hf P.y)

end Demands

section

variable (lookup : Nat → Option (Residue n))

theorem demands_read (x : Expr n) :
    Demands (read lookup x) ((x.eval? lookup).isSome = true) := by
  intro a h
  unfold read at h
  cases hx : x.eval? lookup with
  | none =>
      rw [hx] at h
      cases h
  | some b => rfl

theorem demands_traverse_gate (gate : AdditionGate (Expr n)) :
    Demands (gate.traverse (read lookup)) ((addition gate).Readable lookup) := by
  have hread := demands_read lookup
  have hleft := (Demands.traverse hread gate.left).map (AdditionGate.mk (α := Residue n))
  have hpoints := (hleft.seq (Demands.traverse hread gate.right)).seq
    (Demands.traverse hread gate.sum)
  have hflags := ((hpoints.seq (hread gate.isInfinity)).seq (hread gate.sameX)).seq
    (hread gate.slope)
  intro values h
  obtain ⟨⟨⟨⟨⟨⟨⟨⟨hlx, hly⟩, hrx, hry⟩, hx, hy⟩, hinf⟩, hsame⟩, hslope⟩, hinfz⟩, hdiff⟩ :=
    ((hflags.seq (hread gate.infinityInverse)).seq (hread gate.differenceInverse)) values h
  simp only [Readable, operands, AdditionGate.chosen, List.forall_mem_cons]
  exact ⟨hlx, hly, hrx, hry, hsame, hinf, hinfz, hdiff, hslope, hx, hy, List.forall_mem_nil _⟩

theorem demands_checkScaling (gate : ScalingGate (Expr n)) :
    Demands (checkScaling lookup gate) ((scaling gate).Readable lookup) := by
  let HasValue : Expr n → Prop := fun x => (x.eval? lookup).isSome = true
  have hread : ∀ x, Demands (read lookup x) (HasValue x) := demands_read lookup
  have hreads : Demands (checkScaling lookup gate) ((∀ x ∈ gate.bits, HasValue x) ∧
      HasValue gate.scalar ∧ (HasValue gate.base.x ∧ HasValue gate.base.y) ∧
      HasValue gate.result.x ∧ HasValue gate.result.y) := by
    refine (Demands.mapM hread gate.bits).bind fun bits => .right fun _ => ?_
    refine (hread gate.scalar).bind fun scalar => .right fun _ => ?_
    apply (Demands.traverse hread gate.base).bind
    intro base
    cases base.doubleAndAdd? (bits.map (· = 1)) with
    | none => rintro _ ⟨⟩
    | some expected => exact (Demands.traverse hread gate.result).left _
  intro u h
  obtain ⟨hbits, hscalar, ⟨hbx, hby⟩, hrx, hry⟩ := hreads u h
  simp only [Readable, operands, List.forall_mem_cons]
  exact ⟨hbx, hby, hscalar, hrx, hry, hbits⟩

/-- A constraint is only found to hold once all its operands have been read. -/
theorem demands_check (c : Constraint n) : Demands (c.check lookup) (c.Readable lookup) := by
  have hread := demands_read lookup
  cases c with
  | boolean x | range64 x =>
      simp only [Readable, operands, List.forall_mem_singleton]
      exact (hread x).left _
  | equal x y | square x y =>
      simp only [Readable, operands, List.forall_mem_cons, List.not_mem_nil, IsEmpty.forall_iff,
        implies_true, and_true]
      exact (hread x).bind fun _ => (hread y).left _
  | product x y z =>
      simp only [Readable, operands, List.forall_mem_cons, List.not_mem_nil, IsEmpty.forall_iff,
        implies_true, and_true]
      exact (hread x).bind fun _ => (hread y).bind fun _ => (hread z).left _
  | addition gate => exact (demands_traverse_gate lookup gate).left _
  | scaling gate => exact demands_checkScaling lookup gate
  | limbs lo mid hi =>
      simp only [Readable, operands, List.forall_mem_cons, List.not_mem_nil, IsEmpty.forall_iff,
        implies_true, and_true]
      exact (hread lo).bind fun _ => .right fun _ => (hread mid).bind fun _ => .right fun _ =>
        (hread hi).left _

end

variable {lookup lookup' : Nat → Option (Residue n)} {c : Constraint n}

theorem below_of_check {k : Nat} (hlookup : ∀ i a, lookup i = some a → i < k)
    (h : c.check lookup = .ok ()) : c.Below k := by
  refine below_iff.mpr fun x hx => ?_
  obtain ⟨a, ha⟩ := Option.isSome_iff_exists.mp (demands_check lookup c () h x hx)
  exact Expr.below_of_eval? hlookup ha

theorem check_of_extends (hlookup : ∀ i a, lookup i = some a → lookup' i = some a)
    (h : c.check lookup = .ok ()) : c.check lookup' = .ok () := by
  rw [← h]
  refine check_congr_operands fun x hx => ?_
  obtain ⟨a, ha⟩ := Option.isSome_iff_exists.mp (demands_check lookup c () h x hx)
  rw [ha, Expr.eval?_of_extends hlookup ha]

end Constraint

end PallasCircuits
