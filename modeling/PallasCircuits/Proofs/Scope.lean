import PallasCircuits.Proofs.CircuitType
import PallasCircuits.Proofs.Expr

namespace PallasCircuits

variable {n : Nat} [Modulus n]

/-! What only mentions variables below a bound has a value as soon as these have one. -/

namespace Expr

omit [Modulus n] in
@[grind →] theorem Below.mono {x : Expr n} {j k : Nat} (h : x.Below j) (hjk : j ≤ k) :
    x.Below k := by
  induction x with
  | const c => trivial
  | var i => exact Nat.lt_of_lt_of_le h hjk
  | add a b iha ihb => exact ⟨iha h.1, ihb h.2⟩
  | scale k x ih => exact ih h

omit [Modulus n] in
@[simp, grind =] theorem below_const (c : Residue n) (k : Nat) :
    (const c).Below k ↔ True := Iff.rfl

omit [Modulus n] in
@[simp, grind =] theorem below_var (i k : Nat) : (var i : Expr n).Below k ↔ i < k := Iff.rfl

omit [Modulus n] in
theorem below_of_mem_vars {first count : Nat} {x : Expr n}
    (hx : x ∈ (List.range count).map fun i => .var (first + i)) : x.Below (first + count) := by
  obtain ⟨i, hi, rfl⟩ := List.mem_map.mp hx
  exact Nat.add_lt_add_left (List.mem_range.mp hi) first

@[simp, grind =] theorem below_zero (k : Nat) : (0 : Expr n).Below k ↔ True := Iff.rfl

@[simp, grind =] theorem below_one (k : Nat) : (1 : Expr n).Below k ↔ True := Iff.rfl

@[grind ←] theorem below_plus {x y : Expr n} {k : Nat} (hx : x.Below k) (hy : y.Below k) :
    (x + y).Below k := by
  change (Expr.plus x y).Below k
  unfold Expr.plus
  split
  · trivial
  · split
    · exact hy
    · exact ⟨trivial, hy⟩
  · split
    · exact hx
    · exact ⟨hx, trivial⟩
  · exact ⟨hx, hy⟩

@[grind ←] theorem below_smul {c : Residue n} {x : Expr n} {k : Nat} (hx : x.Below k) :
    (c • x).Below k := by
  change (Expr.times c x).Below k
  unfold Expr.times
  split
  · trivial
  · split
    · exact hx
    · split
      · trivial
      · exact hx
      · exact hx

@[grind ←] theorem below_neg {x : Expr n} {k : Nat} (hx : x.Below k) : (-x).Below k :=
  below_smul hx

@[grind ←] theorem below_minus {x y : Expr n} {k : Nat} (hx : x.Below k) (hy : y.Below k) :
    (x - y).Below k := by
  change (Expr.minus x y).Below k
  unfold Expr.minus
  split
  · trivial
  · exact below_plus hx (below_neg hy)

@[grind ←] theorem below_sum {xs : List (Expr n)} {k : Nat} (h : ∀ x ∈ xs, x.Below k) :
    (Expr.sum xs).Below k := by
  have hfold : ∀ acc : Expr n, acc.Below k → (xs.foldl (· + ·) acc).Below k := by
    induction xs with
    | nil => exact fun _ hacc => hacc
    | cons x xs ih =>
        obtain ⟨hx, hxs⟩ := List.forall_mem_cons.mp h
        exact fun acc hacc => ih hxs (acc + x) (below_plus hacc hx)
  exact hfold 0 trivial

theorem eval?_isSome {lookup : Nat → Option (Residue n)} {x : Expr n} {k : Nat}
    (hx : x.Below k) (hlookup : ∀ i < k, (lookup i).isSome = true) :
    (x.eval? lookup).isSome = true := by
  induction x with
  | const c => rfl
  | var i => exact hlookup i hx
  | add a b iha ihb =>
      obtain ⟨u, hu⟩ := Option.isSome_iff_exists.mp (iha hx.1)
      obtain ⟨v, hv⟩ := Option.isSome_iff_exists.mp (ihb hx.2)
      simp [eval?, hu, hv]
  | scale c x ih =>
      obtain ⟨u, hu⟩ := Option.isSome_iff_exists.mp (ih hx)
      simp [eval?, hu]

theorem below_of_eval? {lookup : Nat → Option (Residue n)} {k : Nat}
    (hlookup : ∀ i a, lookup i = some a → i < k) {x : Expr n} {a : Residue n}
    (hx : x.eval? lookup = some a) : x.Below k := by
  induction x generalizing a with
  | const c => trivial
  | var i => exact hlookup i a hx
  | add x y ihx ihy =>
      simp only [eval?, Option.bind_eq_bind, Option.bind_eq_some_iff] at hx
      obtain ⟨u, hu, v, hv, -⟩ := hx
      exact ⟨ihx hu, ihy hv⟩
  | scale c x ih =>
      obtain ⟨u, hu, -⟩ := Option.map_eq_some_iff.mp hx
      exact ih hu

theorem eval?_of_extends {lookup lookup' : Nat → Option (Residue n)}
    (hlookup : ∀ i a, lookup i = some a → lookup' i = some a) {x : Expr n} {a : Residue n}
    (hx : x.eval? lookup = some a) : x.eval? lookup' = some a := by
  induction x generalizing a with
  | const c => exact hx
  | var i => exact hlookup i a hx
  | add x y ihx ihy =>
      simp only [eval?, Option.bind_eq_bind, Option.bind_eq_some_iff] at hx ⊢
      obtain ⟨u, hu, v, hv, ha⟩ := hx
      exact ⟨u, ihx hu, v, ihy hv, ha⟩
  | scale c x ih =>
      simp only [eval?, Option.map_eq_some_iff] at hx ⊢
      obtain ⟨u, hu, ha⟩ := hx
      exact ⟨u, ih hu, ha⟩

theorem eval?_congr {lookup lookup' : Nat → Option (Residue n)} {k : Nat}
    (hlookup : ∀ i < k, lookup i = lookup' i) {x : Expr n} (hx : x.Below k) :
    x.eval? lookup = x.eval? lookup' := by
  induction x with
  | const c => rfl
  | var i => exact hlookup i hx
  | add a b iha ihb => simp only [eval?, iha hx.1, ihb hx.2]
  | scale c x ih => simp only [eval?, ih hx]

theorem eval_congr {ρ ρ' : Nat → Residue n} {k : Nat} (h : ∀ i < k, ρ' i = ρ i) {x : Expr n}
    (hx : x.Below k) : x.eval ρ' = x.eval ρ := by
  rw [← Option.some_inj, ← eval?_some, ← eval?_some]
  exact eval?_congr (fun i hi => congrArg some (h i hi)) hx

omit [Modulus n] in
theorem below_of_occurrences {x : Expr n} (hx : x.occurrences = 0) (k : Nat) : x.Below k := by
  induction x with
  | const c => trivial
  | var i => cases hx
  | add a b iha ihb =>
      simp only [occurrences, Nat.add_eq_zero_iff] at hx
      exact ⟨iha hx.1, ihb hx.2⟩
  | scale c x ih => exact ih hx

theorem eval?_of_toConstant? (lookup : Nat → Option (Residue n)) {x : Expr n} {a : Residue n}
    (hx : x.toConstant? = some a) : x.eval? lookup = some a := by
  obtain ⟨hclosed, hvalue⟩ := (toConstant?_eq_some_iff fun _ => 0).mp hx
  have hsame : ∀ i < 0, lookup i = some (0 : Residue n) := by simp
  rw [eval?_congr hsame (below_of_occurrences hclosed 0), eval?_some, hvalue]

omit [Modulus n] in
theorem exists_below (xs : List (Expr n)) : ∃ k, ∀ x ∈ xs, x.Below k := by
  have hsingle : ∀ x : Expr n, ∃ k, x.Below k := by
    intro x
    induction x with
    | const c => exact ⟨0, trivial⟩
    | var i => exact ⟨i + 1, Nat.lt_succ_self i⟩
    | add a b iha ihb =>
        obtain ⟨j, hj⟩ := iha
        obtain ⟨k, hk⟩ := ihb
        exact ⟨max j k, hj.mono (Nat.le_max_left j k), hk.mono (Nat.le_max_right j k)⟩
    | scale c x ih => exact ih
  induction xs with
  | nil => exact ⟨0, by simp⟩
  | cons x xs ih =>
      obtain ⟨j, hj⟩ := hsingle x
      obtain ⟨k, hk⟩ := ih
      refine ⟨max j k, List.forall_mem_cons.mpr ⟨hj.mono (Nat.le_max_left j k), ?_⟩⟩
      exact fun y hy => (hk y hy).mono (Nat.le_max_right j k)

end Expr

/-- The reading has a result, which satisfies `P`, wherever the variables below `k` have
values. -/
def Answers {α : Type} (k : Nat) (v : Reading n α) (P : α → Prop) : Prop :=
  ∀ lookup : Nat → Option (Residue n), (∀ i < k, (lookup i).isSome = true) →
    ∃ a, v lookup = some a ∧ P a

namespace Answers

variable {α β : Type} {k : Nat} {v : Reading n α} {f : α → Reading n β} {P : α → Prop}
  {Q : β → Prop}

omit [Modulus n] in
theorem pure {a : α} (h : P a) : Answers k (pure a : Reading n α) P :=
  fun _ _ => ⟨a, rfl, h⟩

omit [Modulus n] in
theorem bind (hv : Answers k v P) (hf : ∀ a, P a → Answers k (f a) Q) :
    Answers k (v >>= f) Q := by
  intro lookup hlookup
  obtain ⟨a, ha, hP⟩ := hv lookup hlookup
  obtain ⟨b, hb, hQ⟩ := hf a hP lookup hlookup
  refine ⟨b, ?_, hQ⟩
  change (v lookup).bind (fun a => f a lookup) = some b
  rw [ha, Option.bind_some, hb]

theorem value {x : Expr n} (hx : x.Below k) : Answers k x.value fun _ => True := by
  intro lookup hlookup
  obtain ⟨a, ha⟩ := Option.isSome_iff_exists.mp (Expr.eval?_isSome hx hlookup)
  exact ⟨a, ha, trivial⟩

theorem read_bool {b : BoolVar n} (hb : b.expr.Below k) :
    Answers k (CircuitType.read (n := n) b) fun _ => True := by
  intro lookup hlookup
  obtain ⟨a, ha, -⟩ := value hb lookup hlookup
  have ha : b.expr.eval? lookup = some a := ha
  exact ⟨a ≠ 0, by simp [CircuitType.read, CircuitType.toExprs, CircuitType.decode?, ha], trivial⟩

theorem read_point {P : Coordinates (Expr n)} (hx : P.x.Below k) (hy : P.y.Below k) :
    Answers k (CircuitType.read (n := n) P) fun _ => True := by
  intro lookup hlookup
  obtain ⟨a, ha, -⟩ := value hx lookup hlookup
  obtain ⟨b, hb, -⟩ := value hy lookup hlookup
  have ha : P.x.eval? lookup = some a := ha
  have hb : P.y.eval? lookup = some b := hb
  exact ⟨⟨a, b⟩, by simp [CircuitType.read, CircuitType.toExprs, CircuitType.decode?,
    Coordinates.toList, ha, hb], trivial⟩

end Answers

/-! ### Values -/

@[simp, grind =] def Coordinates.Below (k : Nat) (P : Coordinates (Expr n)) : Prop :=
  P.x.Below k ∧ P.y.Below k

omit [Modulus n] in
theorem Coordinates.Below.mono {P : Coordinates (Expr n)} {j k : Nat} (h : P.Below j)
    (hjk : j ≤ k) : P.Below k :=
  ⟨h.1.mono hjk, h.2.mono hjk⟩

@[simp, grind =] def Limbs.Below (k : Nat) (x : Limbs (Expr n)) : Prop :=
  x.lo.Below k ∧ x.mid.Below k ∧ x.hi.Below k

omit [Modulus n] in
theorem Limbs.Below.mono {x : Limbs (Expr n)} {j k : Nat} (h : x.Below j) (hjk : j ≤ k) :
    x.Below k :=
  ⟨h.1.mono hjk, h.2.1.mono hjk, h.2.2.mono hjk⟩

/-- Every expression of the value is below `k`. -/
def InScope {T V : Type} [CircuitType n T V] (k : Nat) (x : T) : Prop :=
  ∀ e ∈ CircuitType.toExprs (n := n) x, e.Below k

omit [Modulus n] in
theorem InScope.mono {T V : Type} [CircuitType n T V] {j k : Nat} {x : T}
    (h : InScope (n := n) j x) (hjk : j ≤ k) : InScope (n := n) k x :=
  fun e he => (h e he).mono hjk

section

variable (k : Nat)

omit [Modulus n] in
@[simp, grind =] theorem inScope_unit (x : Unit) : InScope (n := n) k x ↔ True := by
  simp [InScope, CircuitType.toExprs]

omit [Modulus n] in
@[simp, grind =] theorem inScope_expr (x : Expr n) : InScope (n := n) k x ↔ x.Below k :=
  List.forall_mem_singleton

@[simp, grind =] theorem inScope_bool (b : BoolVar n) :
    InScope (n := n) k b ↔ b.expr.Below k :=
  List.forall_mem_singleton

omit [Modulus n] in
@[simp, grind =] theorem inScope_coordinates (P : Coordinates (Expr n)) :
    InScope (n := n) k P ↔ P.Below k := by
  simp [InScope, CircuitType.toExprs, Coordinates.toList]

@[simp, grind =] theorem inScope_limbs (x : Limbs (Expr n)) :
    InScope (n := n) k x ↔ x.Below k := by
  simp [InScope, CircuitType.toExprs, Limbs.toList]

@[simp, grind =] theorem inScope_scalar (t : ScalarVar) :
    InScope (n := Pasta.p) k t ↔ t.lo.expr.Below k ∧ t.hi.Below k := by
  simp [InScope, CircuitType.toExprs]

@[simp, grind =] theorem inScope_group (g : GroupVar) :
    InScope (n := Pasta.p) k g ↔ g.point.Below k := by
  simp [InScope, CircuitType.toExprs, Coordinates.toList]

omit [Modulus n] in
@[simp, grind =] theorem inScope_pair {T₁ T₂ V₁ V₂ : Type} [CircuitType n T₁ V₁]
    [CircuitType n T₂ V₂] (x : T₁ × T₂) :
    InScope (n := n) k x ↔ InScope (n := n) k x.1 ∧ InScope (n := n) k x.2 :=
  List.forall_mem_append

end

end PallasCircuits
