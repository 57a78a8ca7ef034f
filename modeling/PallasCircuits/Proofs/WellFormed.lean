import PallasCircuits.Proofs.Accepts
import PallasCircuits.Proofs.Gadget.CurveGroup
import PallasCircuits.Proofs.HonestScaling
import PallasCircuits.Proofs.Layout

namespace PallasCircuits

open Builder

variable {n : Nat} [Modulus n] {σ : Type} {k : Nat}

/-! The checks of circuit values accept what is well-formed, and nothing else. -/

namespace CircuitType

section

variable {T T' V V' : Type} [CircuitType n T V] [CircuitType n T' V'] {ρ ρ' : Nat → Residue n}

theorem fields_congr {x : T} (h : ∀ i < k, ρ' i = ρ i) (hx : InScope (n := n) k x) :
    fields ρ' x = fields ρ x :=
  List.map_congr_left fun e he => Expr.eval_congr h (hx e he)

theorem fields_pair (x : T × T') : fields ρ x = fields ρ x.1 ++ fields ρ x.2 :=
  List.map_append ..

theorem take_fields [Lawful n T] (x : T × T') :
    (fields ρ x).take (size n T) = fields ρ x.1 := by
  rw [fields_pair, List.take_left' (length_fields ρ x.1)]

theorem drop_fields [Lawful n T] (x : T × T') :
    (fields ρ x).drop (size n T) = fields ρ x.2 := by
  rw [fields_pair, List.drop_left' (length_fields ρ x.1)]

end

/-- The check of `T` accepts just the values whose elements satisfy `P`. -/
structure Checks (n : Nat) [Modulus n] (T : Type) {V : Type} [CircuitType n T V]
    (P : List (Residue n) → Prop) : Prop where
  builds : ∀ {σ : Type} (x : T), Builds (check (n := n) x : Builder n σ Unit) fun _ => True
  sound : ∀ {σ : Type} (ρ : Nat → Residue n) (x : T),
    Ensures ρ (check (n := n) x : Builder n σ Unit) fun _ => P (fields ρ x)
  complete : ∀ {σ : Type} {s : Run n σ} {x : T}, InScope (n := n) s.nextVar x →
    P (fields s.assignment x) → Proves s (check (n := n) x : Builder n σ Unit) fun _ _ => True

namespace Checks

variable {T T' V V' : Type} [CircuitType n T V] [CircuitType n T' V']
  {P P' : List (Residue n) → Prop}

theorem accepts [Composable n T] (h : Checks n T P) {x : T} (hx : InScope (n := n) k x) :
    Accepts k (check (n := n) x : Builder n σ Unit) (fun _ => True) fun ρ => P (fields ρ x) where
  local_given := local_true k
  local_accepted ρ ρ' hsame hP := by
    change P (fields ρ' x)
    rwa [fields_congr hsame hx]
  composed := ⟨_, Composable.check_composed hx⟩
  builds := h.builds x
  sound ρ := (h.sound ρ x).mono fun _ hP _ => hP
  complete _ hk _ hP := h.complete (hx.mono hk) hP

theorem of_pure (h : ∀ {σ : Type} (x : T), (check (n := n) x : Builder n σ Unit) = pure ()) :
    Checks n T fun _ => True where
  builds x := by
    rw [h]
    exact .pure trivial
  sound ρ x := by
    rw [h]
    exact .pure trivial
  complete _ _ := by
    rw [h]
    exact .pure trivial

theorem pair [Lawful n T] [Lawful n T'] (h : Checks n T P) (h' : Checks n T' P') :
    Checks n (T × T') fun f => P (f.take (size n T)) ∧ P' (f.drop (size n T)) where
  builds x := (h.builds x.1).bind fun _ _ => h'.builds x.2
  sound ρ x := by
    rw [take_fields, drop_fields]
    exact (h.sound ρ x.1).bind fun _ => (h'.sound ρ x.2).mono fun _ hP' hP => ⟨hP, hP'⟩
  complete {_ s x} hx hP := by
    rw [take_fields, drop_fields] at hP
    obtain ⟨hx₁, hx₂⟩ := (inScope_pair _ _).mp hx
    refine (h.complete hx₁ hP.1).bind fun t _ hst _ => h'.complete (hx₂.mono hst.nextVar_le) ?_
    -- the first check may add variables, but the second component does not mention them
    rw [fields_congr hst.assignment hx₂]
    exact hP.2

end Checks

/-! ### Basic types -/

theorem checks_bool : Checks n (BoolVar n) fun f => ∀ a ∈ f, a = 0 ∨ a = 1 where
  builds x := .assert _
  sound ρ x := by
    refine (Ensures.assert _).mono fun _ h => List.forall_mem_singleton.mpr ?_
    exact ((Constraint.holds_boolean ρ x.expr).mp h).symm
  complete {_ s x} hx h := by
    have hbit := List.forall_mem_singleton.mp h
    exact .assert (c := .boolean x.expr) ((inScope_bool _ _).mp hx)
      ((Constraint.holds_boolean _ _).mpr hbit.symm)

theorem forall_fields_limbs {ρ : Nat → Residue n} {x : Limbs (Expr n)} :
    (∀ a ∈ fields ρ x, a.val < 2 ^ 88) ↔ (x.eval ρ).InRange := by
  simp only [fields, toExprs, Limbs.toList, List.map_cons, List.map_nil, List.forall_mem_cons,
    List.not_mem_nil, false_imp_iff, implies_true, and_true]
  exact ⟨fun h => ⟨h.1, h.2.1, h.2.2⟩, fun h => ⟨h.lo, h.mid, h.hi⟩⟩

theorem checks_limbs : Checks n (Limbs (Expr n)) fun f => ∀ a ∈ f, a.val < 2 ^ 88 where
  builds x := x.assertRange_builds
  sound _ x := x.assertRange_ensures.mono fun _ h => forall_fields_limbs.mpr h
  complete hx h :=
    Limbs.assertRange_proves_of_inRange ((inScope_limbs _ _).mp hx) (forall_fields_limbs.mp h)

def GroupFields (f : List Fp) : Prop :=
  ∃ P : Coordinates Fp, f = P.toList ∧ (P = 0 ∨ P.y ^ 2 = P.x ^ 3 + Pallas.b)

theorem checks_group : Checks Pasta.p GroupVar GroupFields where
  builds g := g.assertOnCurve_builds
  sound ρ g := g.assertOnCurve_ensures.mono fun _ h => ⟨g.point.eval ρ, rfl, h⟩
  complete {_ s g} hg h := by
    obtain ⟨P, hfields, hP⟩ := h
    obtain ⟨hx, hy⟩ := (inScope_group _ _).mp hg
    obtain ⟨hxval, hyval⟩ := List.cons_eq_cons.mp hfields
    refine GroupVar.assertOnCurve_proves (P := P) (Run.carries_point.mpr ⟨?_, ?_⟩) hP
    · exact Run.carries_expr.mpr ⟨hx, hxval⟩
    · exact Run.carries_expr.mpr ⟨hy, List.singleton_inj.mp hyval⟩

theorem checks_scalar :
    Checks Pasta.p ScalarVar fun f => ∃ lo hi, f = [lo, hi] ∧ (lo = 0 ∨ lo = 1) where
  builds t := checks_bool.builds t.lo
  sound ρ t := (checks_bool.sound ρ t.lo).mono fun _ h =>
    ⟨t.lo.expr.eval ρ, t.hi.eval ρ, rfl, h _ List.mem_cons_self⟩
  complete {_ s t} ht h := by
    obtain ⟨lo, hi, hfields, hlo⟩ := h
    obtain ⟨rfl, -⟩ := List.cons_eq_cons.mp hfields
    exact checks_bool.complete (x := t.lo) ((inScope_bool _ _).mpr ((inScope_scalar _ _).mp ht).1)
      (List.forall_mem_singleton.mpr hlo)

/-! ### Canonical encodings -/

/-- Elements that satisfy `P` are the encoding of what they stand for. -/
def Canonical (n : Nat) (T : Type) {V : Type} [CircuitType n T V]
    (P : List (Residue n) → Prop) : Prop :=
  ∀ (f : List (Residue n)) (a : Aux n T), f.length = size n T → P f →
    ∃ v, decode? (T := T) f a = some v ∧ encode T v = f

section

omit [Modulus n]

theorem canonical_unit : Canonical n Unit fun _ => True
  | [], _, _, _ => ⟨(), rfl, rfl⟩

theorem canonical_expr : Canonical n (Expr n) fun _ => True
  | [a], _, _, _ => ⟨a, rfl, rfl⟩

theorem canonical_vector {k : Nat} : Canonical n (Vector (Expr n) k) fun _ => True := by
  intro f _ h _
  have hk : f.length = k := h
  exact ⟨⟨f.toArray, by simpa using hk⟩, dif_pos hk, rfl⟩

theorem canonical_coordinates : Canonical n (Coordinates (Expr n)) fun _ => True
  | [x, y], _, _, _ => ⟨⟨x, y⟩, rfl, rfl⟩

theorem Canonical.pair {T T' V V' : Type} [CircuitType n T V] [CircuitType n T' V']
    {P P' : List (Residue n) → Prop} (h : Canonical n T P) (h' : Canonical n T' P') :
    Canonical n (T × T') fun f => P (f.take (size n T)) ∧ P' (f.drop (size n T)) := by
  intro f a hlength hP
  have hsize : f.length = size n T + size n T' := hlength
  obtain ⟨v, hv, hencode⟩ := h (f.take (size n T)) a.1 (by rw [List.length_take]; omega) hP.1
  obtain ⟨v', hv', hencode'⟩ := h' (f.drop (size n T)) a.2 (by rw [List.length_drop]; omega) hP.2
  refine ⟨(v, v'), ?_, ?_⟩
  · simp only [decode?, hsize, Nat.le_add_right, if_true, hv, hv']
    rfl
  · simp only [encode, hencode, hencode', List.take_append_drop]

end

theorem canonical_bool : Canonical n (BoolVar n) fun f => ∀ a ∈ f, a = 0 ∨ a = 1
  | [a], _, _, h => by
      refine ⟨decide (a ≠ 0), rfl, ?_⟩
      rcases List.forall_mem_singleton.mp h with rfl | rfl
      · simp [encode]
      · simp [encode, Residue.one_ne_zero]

theorem canonical_limbs : Canonical n (Limbs (Expr n)) fun f => ∀ a ∈ f, a.val < 2 ^ 88
  | [lo, mid, hi], _, _, h => by
      refine ⟨_, rfl, ?_⟩
      have hlimbs : Limbs.ofNat (Limbs.toNat ⟨lo.val, mid.val, hi.val⟩) = _ :=
        Limbs.ofNat_toNat (h lo (by simp)) (h mid (by simp))
      simp only [encode, hlimbs, Limbs.map, Limbs.toList, Residue.ofNat_val]

theorem canonical_group : Canonical Pasta.p GroupVar GroupFields := by
  rintro _ - - ⟨P, rfl, -⟩
  exact ⟨.ofCoordinates P, rfl, congrArg Coordinates.toList (Pallas.toCoordinates_ofCoordinates P)⟩

end CircuitType

namespace Layout

open CircuitType

/-- Bits are zero or one, limbs are in range, and points are on the curve, each at the place where
the layout has it. -/
def WellFormed : {n : Nat} → [Modulus n] → (t : Layout n) → List (Residue n) → Prop
  | _, _, bool, f => ∀ a ∈ f, a = 0 ∨ a = 1
  | _, _, limbs, f => ∀ a ∈ f, a.val < 2 ^ 88
  | _, _, group, f => GroupFields f
  | _, _, scalar, f => ∃ lo hi, f = [lo, hi] ∧ (lo = 0 ∨ lo = 1)
  | n, _, pair a b, f =>
      a.WellFormed (f.take (size n a.Var)) ∧ b.WellFormed (f.drop (size n a.Var))
  | _, _, unit, _ => True
  | _, _, field, _ => True
  | _, _, array _, _ => True
  | _, _, point, _ => True

theorem checks : {n : Nat} → [Modulus n] → (t : Layout n) → Checks n t.Var t.WellFormed
  | _, _, bool => checks_bool
  | _, _, limbs => checks_limbs
  | _, _, group => checks_group
  | _, _, scalar => checks_scalar
  | _, _, pair a b => a.checks.pair b.checks
  | _, _, unit => .of_pure fun _ => rfl
  | _, _, field => .of_pure fun _ => rfl
  | _, _, array _ => .of_pure fun _ => rfl
  | _, _, point => .of_pure fun _ => rfl

def ScalarFree : {n : Nat} → Layout n → Prop
  | _, scalar => False
  | _, pair a b => a.ScalarFree ∧ b.ScalarFree
  | _, unit => True
  | _, field => True
  | _, bool => True
  | _, array _ => True
  | _, limbs => True
  | _, point => True
  | _, group => True

theorem canonical : {n : Nat} → [Modulus n] → (t : Layout n) → t.ScalarFree →
    Canonical n t.Var t.WellFormed
  | _, _, unit, _ => canonical_unit
  | _, _, field, _ => canonical_expr
  | _, _, bool, _ => canonical_bool
  | _, _, array _, _ => canonical_vector
  | _, _, limbs, _ => canonical_limbs
  | _, _, point, _ => canonical_coordinates
  | _, _, group, _ => canonical_group
  | _, _, pair a b, h => (a.canonical h.1).pair (b.canonical h.2)

theorem wellFormed_group_iff (P : Coordinates Fp) :
    group.WellFormed P.toList ↔ (Pallas.ofCoordinates P).isOnCurve = true := by
  have hfields : GroupFields P.toList ↔ P = 0 ∨ P.y ^ 2 = P.x ^ 3 + Pallas.b := by
    constructor
    · rintro ⟨Q, hQ, h⟩
      obtain ⟨hx, hy⟩ := List.cons_eq_cons.mp hQ
      obtain rfl : P = Q := Coordinates.ext hx (List.singleton_inj.mp hy)
      exact h
    · exact fun h => ⟨P, rfl, h⟩
  refine hfields.trans ?_
  by_cases hzero : P = 0
  · rw [hzero, Pallas.ofCoordinates_zero]
    exact iff_of_true (.inl rfl) rfl
  · rw [Pallas.ofCoordinates, if_neg hzero, Pallas.isOnCurve_affine_iff, or_iff_right hzero]

/-- Of every nested type the check decides whether the elements are well-formed. Unless there are
scalars among them, such elements are the encoding of the value that they stand for. -/
theorem check_decides (start : Run n σ) (t : Layout n) :
    (∀ x : t.Var, InScope (n := n) start.nextVar x →
      Decides start (check (n := n) x) (fun _ => True) fun ρ => t.WellFormed (fields ρ x)) ∧
    (t.ScalarFree → ∀ (f : List (Residue n)) (a : Aux n t.Var), f.length = size n t.Var →
      t.WellFormed f → ∃ v, decode? (T := t.Var) f a = some v ∧ encode t.Var v = f) ∧
    ∀ P : Coordinates Fp,
      group.WellFormed P.toList ↔ (Pallas.ofCoordinates P).isOnCurve = true :=
  ⟨fun _ hx => (t.checks.accepts hx).decides le_rfl, t.canonical, wellFormed_group_iff⟩

theorem check_decides_bool_group :
    let t : Layout Pasta.p := .pair .bool .group
    let x : t.Var := ((⟨.var 0⟩, ⟨⟨.var 1, .var 2⟩⟩) : BoolVar Pasta.p × GroupVar)
    (∃ u, check (n := Pasta.p) x (Run.start 3 true () : Run Pasta.p Unit) = .ok () u ∧
      (Run.start 3 true ()).Solvable u (fun i => if i = 0 then 1 else 0) ∧
      ¬(Run.start 3 true ()).Solvable u fun _ => 1) ∧
    (∃ u, check (n := Pasta.p) x (.proof [1, 0, 0] () : Run Pasta.p Unit) = .ok () u) ∧
    (∃ violation u, check (n := Pasta.p) x (.proof [1, 1, 1] () : Run Pasta.p Unit) =
      .error (.violation violation) u) ∧
    (∃ v, decode? (T := t.Var) ([1, 0, 0] : List Fp) setupAux = some v ∧
      encode t.Var v = ([1, 0, 0] : List Fp)) ∧
    ¬group.WellFormed [1, 1] := by
  intro t x
  have hx : InScope (n := Pasta.p) 3 x := by
    refine (inScope_pair _ _).mpr ⟨(inScope_bool _ _).mpr ?_, (inScope_group _ _).mpr ⟨?_, ?_⟩⟩
    · exact (by decide : 0 < 3)
    · exact (by decide : 1 < 3)
    · exact (by decide : 2 < 3)
  obtain ⟨hsetup, hcanonical, hgroup⟩ := check_decides (Run.start 3 true () : Run Pasta.p Unit) t
  have hprove : ∀ a b c : Fp, Decides (.proof [a, b, c] () : Run Pasta.p Unit) _ _ _ :=
    fun a b c => (check_decides _ t).1 x hx
  have hgood : t.WellFormed [1, 0, 0] :=
    ⟨List.forall_mem_singleton.mpr (.inr rfl), 0, rfl, .inl rfl⟩
  have hoff : ¬group.WellFormed [1, 1] := by
    refine (hgroup ⟨1, 1⟩).not.mpr ?_
    decide
  obtain ⟨u, hrun, hsolvable⟩ := (hsetup x hx).circuit ⟨⟨rfl, rfl⟩, rfl⟩
  obtain ⟨w, hpass, -⟩ := (hprove 1 0 0).passes (Run.proving_proof _ ()) trivial hgood
  exact ⟨⟨u, hrun, (hsolvable _ trivial).mpr hgood, fun h => hoff ((hsolvable _ trivial).mp h).2⟩,
    ⟨w, hpass⟩,
    (hprove 1 1 1).rejects (Run.proving_proof _ ()) rfl trivial fun h => hoff h.2,
    hcanonical ⟨trivial, trivial⟩ [1, 0, 0] setupAux rfl hgood, hoff⟩

end Layout

end PallasCircuits
