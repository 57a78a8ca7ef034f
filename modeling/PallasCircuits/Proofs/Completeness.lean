import PallasCircuits.Proofs.Check
import PallasCircuits.Proofs.Ensures
import PallasCircuits.Proofs.Values

namespace PallasCircuits

variable {n : Nat} {σ α β : Type}

/-! Honest proving runs: which of them go through, and what their variables hold then. -/

namespace Run

structure Proving (s : Run n σ) : Prop extends s.Recording, s.Complete

namespace Proving

variable {s : Run n σ} (hs : s.Proving)

include hs

theorem record (cs : List (Constraint n)) : (s.record cs).Proving where
  toRecording := hs.toRecording.record cs
  toComplete := ⟨hs.hasValues, hs.publicValues, hs.nextVar⟩

theorem store (values : List (Residue n)) :
    ({ s with
      nextVar := s.nextVar + values.length
      privateValues := s.privateValues ++ values } : Run n σ).Proving where
  toRecording := ⟨hs.lazy, hs.system⟩
  toComplete := hs.toComplete.store values

end Proving

variable [Modulus n]

def assignment (s : Run n σ) (i : Nat) : Residue n :=
  (s.lookup i).getD 0

namespace Proving

variable {s : Run n σ} (hs : s.Proving)

include hs

theorem lookup_eq {i : Nat} (hi : i < s.nextVar) : s.lookup i = some (s.assignment i) := by
  obtain ⟨a, ha⟩ := Option.isSome_iff_exists.mp (hs.lookup_isSome hi)
  rw [Run.assignment, ha, Option.getD_some]

theorem lookup_eq_some {i : Nat} {a : Residue n} (h : s.lookup i = some a) :
    i < s.nextVar ∧ s.assignment i = a := by
  refine ⟨?_, by rw [Run.assignment, h, Option.getD_some]⟩
  rw [hs.lookup] at h
  obtain ⟨hi, -⟩ := List.getElem?_eq_some_iff.mp h
  rwa [hs.length_values] at hi

theorem eval?_eq {x : Expr n} (hx : x.Below s.nextVar) :
    x.eval? s.lookup = some (x.eval s.assignment) := by
  rw [Expr.eval?_congr (fun _ hi => hs.lookup_eq hi) hx, Expr.eval?_some]

theorem check_eq {c : Constraint n} (hc : c.Below s.nextVar) :
    c.check s.lookup = c.check fun i => some (s.assignment i) :=
  Constraint.check_congr (fun _ hi => hs.lookup_eq hi) hc

theorem assignment_store (values : List (Residue n)) {i : Nat} (hi : i < values.length) :
    ({ s with
      nextVar := s.nextVar + values.length
      privateValues := s.privateValues ++ values } : Run n σ).assignment (s.nextVar + i) =
      values.get ⟨i, hi⟩ := by
  have hvalues : ({ s with
      nextVar := s.nextVar + values.length
      privateValues := s.privateValues ++ values } : Run n σ).values = s.values ++ values := by
    simp [Run.values]
  have hlength := hs.length_values
  rw [Run.assignment, (hs.toComplete.store values).lookup, hvalues,
    List.getElem?_append_right (by omega)]
  simp [hlength, hi]

end Proving

/-- A proving run goes on from `s` to `t`: values stay as they are, and the constraints that
are recorded on the way are satisfied. -/
structure Advances (s t : Run n σ) : Prop where
  proving : t.Proving
  evaluates : t.evaluates = s.evaluates
  nextVar_le : s.nextVar ≤ t.nextVar
  assignment : ∀ i < s.nextVar, t.assignment i = s.assignment i
  constraints : ∃ cs, t.constraints = s.constraints ++ cs ∧ ∀ c ∈ cs, c.check t.lookup = .ok ()

namespace Advances

variable {s t u : Run n σ}

theorem refl (hs : s.Proving) : s.Advances s :=
  ⟨hs, rfl, Nat.le_refl _, fun _ _ => rfl, [], by simp, by simp⟩

theorem lookup (h : s.Advances t) (hs : s.Proving) {i : Nat} {a : Residue n}
    (ha : s.lookup i = some a) : t.lookup i = some a := by
  obtain ⟨hi, rfl⟩ := hs.lookup_eq_some ha
  rw [h.proving.lookup_eq (Nat.lt_of_lt_of_le hi h.nextVar_le), h.assignment i hi]

theorem trans (hst : s.Advances t) (htu : t.Advances u) : s.Advances u where
  proving := htu.proving
  evaluates := htu.evaluates.trans hst.evaluates
  nextVar_le := Nat.le_trans hst.nextVar_le htu.nextVar_le
  assignment i hi :=
    (htu.assignment i (Nat.lt_of_lt_of_le hi hst.nextVar_le)).trans (hst.assignment i hi)
  constraints := by
    obtain ⟨cs, hcs, hchecks⟩ := hst.constraints
    obtain ⟨ds, hds, hchecks'⟩ := htu.constraints
    refine ⟨cs ++ ds, by rw [hds, hcs, List.append_assoc], fun c hc => ?_⟩
    rcases List.mem_append.mp hc with hc | hc
    · exact Constraint.check_of_extends (fun _ _ => htu.lookup hst.proving) (hchecks c hc)
    · exact hchecks' c hc

theorem record (hs : s.Proving) {cs : List (Constraint n)}
    (h : ∀ c ∈ cs, c.check s.lookup = .ok ()) : s.Advances (s.record cs) :=
  ⟨hs.record cs, rfl, Nat.le_refl _, fun _ _ => rfl, cs,
    Run.constraints_record hs.toRecording cs, h⟩

theorem store (hs : s.Proving) (values : List (Residue n)) :
    s.Advances { s with
      nextVar := s.nextVar + values.length
      privateValues := s.privateValues ++ values } where
  proving := hs.store values
  evaluates := rfl
  nextVar_le := Nat.le_add_right _ _
  assignment i hi := ((hs.store values).lookup_eq_some (lookup_store (hs.lookup_eq hi))).2
  constraints := ⟨[], by simp [Run.constraints], by simp⟩

theorem author (hs : s.Proving) (author : σ) : s.Advances { s with author } where
  proving := ⟨⟨hs.lazy, hs.system⟩, ⟨hs.hasValues, hs.publicValues, hs.nextVar⟩⟩
  evaluates := rfl
  nextVar_le := Nat.le_refl _
  assignment _ _ := rfl
  constraints := ⟨[], (List.append_nil _).symm, by simp⟩

theorem check_recordedSince (h : s.Advances t) :
    ∀ c ∈ s.recordedSince t, c.check t.lookup = .ok () := by
  obtain ⟨cs, hcs, hchecks⟩ := h.constraints
  rwa [recordedSince, hcs, List.drop_left]

theorem holds_recordedSince (h : s.Advances t) : ∀ c ∈ s.recordedSince t, c.Holds t.assignment := by
  intro c hc
  refine Constraint.check_of_extends (fun i a hi => ?_) (h.check_recordedSince c hc)
  rw [(h.proving.lookup_eq_some hi).2]

end Advances

/-! ### Values -/

structure CarriesAll (s : Run n σ) (xs : List (Expr n)) (as : List (Residue n)) : Prop where
  below : ∀ x ∈ xs, x.Below s.nextVar
  eval : xs.map (·.eval s.assignment) = as

def Carries {T V : Type} [CircuitType n T V] (s : Run n σ) (x : T) (v : V) : Prop :=
  s.CarriesAll (CircuitType.toExprs x) (CircuitType.encode T v)

section

variable {s t : Run n σ}

theorem carries_expr {x : Expr n} {a : Residue n} :
    s.Carries x a ↔ x.Below s.nextVar ∧ x.eval s.assignment = a := by
  constructor
  · rintro ⟨hbelow, heval⟩
    exact ⟨List.forall_mem_singleton.mp hbelow, List.singleton_inj.mp heval⟩
  · rintro ⟨hbelow, heval⟩
    exact ⟨List.forall_mem_singleton.mpr hbelow, List.singleton_inj.mpr heval⟩

theorem Carries.below {x : Expr n} {a : Residue n} (h : s.Carries x a) : x.Below s.nextVar :=
  (carries_expr.mp h).1

theorem Carries.eval {x : Expr n} {a : Residue n} (h : s.Carries x a) :
    x.eval s.assignment = a :=
  (carries_expr.mp h).2

@[simp] theorem carriesAll_nil : s.CarriesAll [] [] :=
  ⟨by simp, rfl⟩

theorem carriesAll_cons {x : Expr n} {a : Residue n} {xs : List (Expr n)}
    {as : List (Residue n)} :
    s.CarriesAll (x :: xs) (a :: as) ↔ s.Carries x a ∧ s.CarriesAll xs as := by
  constructor
  · rintro ⟨hbelow, heval⟩
    obtain ⟨hx, hxs⟩ := List.forall_mem_cons.mp hbelow
    obtain ⟨ha, has⟩ := List.cons_eq_cons.mp heval
    exact ⟨carries_expr.mpr ⟨hx, ha⟩, hxs, has⟩
  · rintro ⟨hx, hxs, has⟩
    refine ⟨List.forall_mem_cons.mpr ⟨hx.below, hxs⟩, ?_⟩
    rw [List.map_cons, hx.eval, has]

theorem carriesAll_append {xs ys : List (Expr n)} {as bs : List (Residue n)}
    (hlength : xs.length = as.length) :
    s.CarriesAll (xs ++ ys) (as ++ bs) ↔ s.CarriesAll xs as ∧ s.CarriesAll ys bs := by
  constructor
  · rintro ⟨hbelow, heval⟩
    obtain ⟨hxs, hys⟩ := List.forall_mem_append.mp hbelow
    rw [List.map_append] at heval
    obtain ⟨has, hbs⟩ := List.append_inj heval (by rw [List.length_map, hlength])
    exact ⟨⟨hxs, has⟩, hys, hbs⟩
  · rintro ⟨⟨hxs, has⟩, hys, hbs⟩
    exact ⟨List.forall_mem_append.mpr ⟨hxs, hys⟩, by rw [List.map_append, has, hbs]⟩

theorem CarriesAll.length_eq {xs : List (Expr n)} {as : List (Residue n)}
    (h : s.CarriesAll xs as) : xs.length = as.length := by
  rw [← h.eval, List.length_map]

theorem Advances.eval_eq (h : s.Advances t) {x : Expr n} (hx : x.Below s.nextVar) :
    x.eval t.assignment = x.eval s.assignment :=
  Expr.eval_congr h.assignment hx

theorem CarriesAll.mono {xs : List (Expr n)} {as : List (Residue n)} (h : s.CarriesAll xs as)
    (hst : s.Advances t) : t.CarriesAll xs as where
  below x hx := (h.below x hx).mono hst.nextVar_le
  eval := by
    rw [← h.eval]
    exact List.map_congr_left fun x hx => hst.eval_eq (h.below x hx)

theorem Carries.mono {T V : Type} [CircuitType n T V] {x : T} {v : V} (h : s.Carries x v)
    (hst : s.Advances t) : t.Carries x v :=
  CarriesAll.mono h hst

theorem carries_bool {b : BoolVar n} {v : Bool} :
    s.Carries b v ↔ s.Carries b.expr (.ofBool v) := Iff.rfl

theorem carries_point {P : Coordinates (Expr n)} {A : Coordinates (Residue n)} :
    s.Carries P A ↔ s.Carries P.x A.x ∧ s.Carries P.y A.y :=
  carriesAll_cons

theorem carries_pair {T V T' V' : Type} [CircuitType n T V] [CircuitType.Lawful n T]
    [CircuitType n T' V'] {x : T × T'} {v : V × V'} :
    s.Carries x v ↔ s.Carries x.1 v.1 ∧ s.Carries x.2 v.2 :=
  carriesAll_append (by rw [CircuitType.Lawful.length_toExprs, CircuitType.Lawful.length_encode])

theorem carries_scalar {s : Run Pasta.p σ} {t : ScalarVar} {u : Fq} :
    s.Carries t u ↔ s.Carries t.lo (ScalarVar.shift u).1 ∧
      s.Carries t.hi (Residue.ofNat (ScalarVar.shift u).2) := by
  unfold Carries
  simp only [CircuitType.encode]
  generalize ScalarVar.shift u = parts
  exact carriesAll_cons

theorem carries_group {s : Run Pasta.p σ} {g : GroupVar} {G : Pallas} :
    s.Carries g G ↔ s.Carries g.point G.toCoordinates := Iff.rfl

end

namespace Carries

variable {s : Run n σ} {x y : Expr n} {a b : Residue n}

theorem const (c : Residue n) : s.Carries (Expr.const c) c :=
  carries_expr.mpr ⟨trivial, rfl⟩

theorem zero : s.Carries (0 : Expr n) (0 : Residue n) :=
  const 0

theorem one : s.Carries (1 : Expr n) (1 : Residue n) :=
  const 1

theorem plus (hx : s.Carries x a) (hy : s.Carries y b) : s.Carries (x + y) (a + b) :=
  carries_expr.mpr ⟨Expr.below_plus hx.below hy.below, by rw [Expr.eval_plus, hx.eval, hy.eval]⟩

theorem minus (hx : s.Carries x a) (hy : s.Carries y b) : s.Carries (x - y) (a - b) :=
  carries_expr.mpr ⟨Expr.below_minus hx.below hy.below, by rw [Expr.eval_minus, hx.eval, hy.eval]⟩

theorem smul (c : Residue n) (hx : s.Carries x a) : s.Carries (c • x) (c * a) :=
  carries_expr.mpr ⟨Expr.below_smul hx.below, by rw [Expr.eval_smul, hx.eval]⟩

theorem neg (hx : s.Carries x a) : s.Carries (-x) (-a) :=
  carries_expr.mpr ⟨Expr.below_neg hx.below, by rw [Expr.eval_neg, hx.eval]⟩

theorem sum {xs : List (Expr n)} {as : List (Residue n)} (hxs : s.CarriesAll xs as) :
    s.Carries (Expr.sum xs) as.sum :=
  carries_expr.mpr ⟨Expr.below_sum hxs.below, by rw [Expr.eval_sum, hxs.eval]⟩

theorem of_below (hx : x.Below s.nextVar) : s.Carries x (x.eval s.assignment) :=
  carries_expr.mpr ⟨hx, rfl⟩

theorem eq_of_toConstant? {c : Residue n} (hx : s.Carries x a) (hc : x.toConstant? = some c) :
    c = a :=
  (Expr.eval_of_toConstant? s.assignment hc).symm.trans hx.eval

end Carries

/-! ### Readings -/

def Reads (s : Run n σ) (m : Reading n α) (a : α) : Prop :=
  s.Proving → m s.lookup = some a

namespace Reads

variable {s : Run n σ}

omit [Modulus n] in
theorem pure (a : α) : s.Reads (pure a : Reading n α) a :=
  fun _ => rfl

omit [Modulus n] in
theorem bind {m : Reading n α} {f : α → Reading n β} {a : α} {b : β} (hm : s.Reads m a)
    (hf : s.Reads (f a) b) : s.Reads (m >>= f) b := by
  intro hs
  change (m s.lookup).bind (fun a => f a s.lookup) = some b
  rw [hm hs, Option.bind_some, hf hs]

theorem value {x : Expr n} {a : Residue n} (hx : s.Carries x a) : s.Reads x.value a := by
  intro hs
  rw [Expr.value, hs.eval?_eq hx.below, hx.eval]

theorem read_bool {b : BoolVar n} {v : Bool} (hb : s.Carries b v) :
    s.Reads (CircuitType.read (n := n) b) v := by
  have hb := carries_bool.mp hb
  intro hs
  cases v <;>
    simp [CircuitType.read, CircuitType.toExprs, CircuitType.decode?, hs.eval?_eq hb.below,
      hb.eval, Residue.one_ne_zero]

theorem read_point {P : Coordinates (Expr n)} {A : Coordinates (Residue n)}
    (hP : s.Carries P A) : s.Reads (CircuitType.read (n := n) P) A := by
  obtain ⟨hx, hy⟩ := carries_point.mp hP
  intro hs
  simp [CircuitType.read, CircuitType.toExprs, CircuitType.decode?, Coordinates.toList,
    hs.eval?_eq hx.below, hs.eval?_eq hy.below, hx.eval, hy.eval]

end Reads

end Run

namespace Builder

variable [Modulus n]

/-- In a proving run that has got to `s`, `m` succeeds, the constraints that it records are
satisfied, and `P` holds of the run and the result in the end. -/
def Proves (s : Run n σ) (m : Builder n σ α) (P : Run n σ → α → Prop) : Prop :=
  s.Proving → ∃ a t, m s = .ok a t ∧ s.Advances t ∧ P t a

def Fails (s : Run n σ) (m : Builder n σ α) (fault : Fault) : Prop :=
  s.Proving → ∃ t, m s = .error fault t

variable {s : Run n σ} {m : Builder n σ α} {f : α → Builder n σ β} {P : Run n σ → α → Prop}
  {Q : Run n σ → β → Prop} {fault : Fault}

theorem Fails.bind (hm : Proves s m P) (hf : ∀ t a, s.Advances t → P t a → Fails t (f a) fault) :
    Fails s (m >>= f) fault := by
  intro hs
  obtain ⟨a, t, hrun, hst, hP⟩ := hm hs
  obtain ⟨u, hfault⟩ := hf t a hst hP hst.proving
  exact ⟨u, (bind_of_ok hrun).trans hfault⟩

omit [Modulus n] in
theorem Fails.bind_left (hm : Fails s m fault) : Fails s (m >>= f) fault := by
  intro hs
  obtain ⟨t, hrun⟩ := hm hs
  exact ⟨t, bind_of_error hrun⟩

theorem assert_of_unsatisfied {c : Constraint n} (hs : s.Proving) (heval : s.evaluates = true)
    (hc : c.Below s.nextVar)
    (h : c.check (fun i => some (s.assignment i)) = .error fault) :
    Builder.assert c s = .error fault s := by
  have hchecks : s.checks = true := by
    rw [Run.checks, hs.hasValues, heval, Bool.true_or, Bool.and_true]
  have hcheck : check c s = .error fault s :=
    check_eq_error.mpr ⟨(hs.check_eq hc).trans h, rfl⟩
  have hforM : [c].forM check s = .error fault s := bind_of_error hcheck
  rw [Builder.assert, constrain_apply, hchecks, if_pos rfl]
  exact bind_of_error hforM

theorem Fails.assert {c : Constraint n} (heval : s.evaluates = true) (hc : c.Below s.nextVar)
    (h : c.check (fun i => some (s.assignment i)) = .error fault) :
    Fails s (assert c : Builder n σ Unit) fault :=
  fun hs => ⟨s, assert_of_unsatisfied hs heval hc h⟩

namespace Proves

theorem mono {P' : Run n σ → α → Prop} (hm : Proves s m P)
    (h : ∀ t a, s.Advances t → P t a → P' t a) : Proves s m P' := by
  intro hs
  obtain ⟨a, t, hrun, hst, hP⟩ := hm hs
  exact ⟨a, t, hrun, hst, h t a hst hP⟩

theorem pure {a : α} (h : P s a) : Proves s (pure a : Builder n σ α) P :=
  fun hs => ⟨a, s, rfl, .refl hs, h⟩

theorem bind (hm : Proves s m P) (hf : ∀ t a, s.Advances t → P t a → Proves t (f a) Q) :
    Proves s (m >>= f) Q := by
  intro hs
  obtain ⟨a, t, hrun, hst, hP⟩ := hm hs
  obtain ⟨b, u, hrun', htu, hQ⟩ := hf t a hst hP hst.proving
  exact ⟨b, u, (bind_of_ok hrun).trans hrun', hst.trans htu, hQ⟩

theorem guard {c : Prop} [Decidable c] {m : Builder n σ Unit} {f : Unit → Builder n σ β}
    (hm : c → Proves s m fun _ _ => True) (hf : ∀ t, s.Advances t → Proves t (f ()) Q) :
    Proves s (if c then m >>= f else f ()) Q := by
  intro hs
  split
  · next hc => exact ((hm hc).bind fun t _ hst _ => hf t hst) hs
  · exact hf s (.refl hs) hs

theorem orAbort {o : Option α} {a : α} (ho : o = some a) (h : P s a) :
    Proves s (orAbort o : Builder n σ α) P := by
  rw [ho]
  exact pure h

theorem constrain {cs : List (Constraint n)} (hbelow : ∀ c ∈ cs, c.Below s.nextVar)
    (hholds : ∀ c ∈ cs, c.Holds s.assignment) :
    Proves s (constrain cs : Builder n σ Unit) fun _ _ => True := by
  intro hs
  have hchecks : ∀ c ∈ cs, c.check s.lookup = .ok () := fun c hc =>
    (hs.check_eq (hbelow c hc)).trans (hholds c hc)
  refine ⟨(), s.record cs, constrain_eq_ok.mpr ⟨fun _ => hchecks, ?_⟩, .record hs hchecks, trivial⟩
  rw [hs.lazy, if_neg Bool.false_ne_true]

theorem assert {c : Constraint n} (hbelow : c.Below s.nextVar) (hholds : c.Holds s.assignment) :
    Proves s (assert c : Builder n σ Unit) fun _ _ => True :=
  constrain (List.forall_mem_singleton.mpr hbelow) (List.forall_mem_singleton.mpr hholds)

section

variable {x y z : Expr n} {a b c : Residue n}

theorem boolean {v : Bool} (hx : s.Carries x (.ofBool v)) :
    Proves s (Builder.assert (.boolean x) : Builder n σ Unit) fun _ _ => True := by
  refine assert (c := .boolean x) hx.below ?_
  rw [Constraint.holds_boolean, hx.eval]
  cases v with
  | false => exact .inr rfl
  | true => exact .inl rfl

theorem equal (hx : s.Carries x a) (hy : s.Carries y a) :
    Proves s (Builder.assert (.equal x y) : Builder n σ Unit) fun _ _ => True := by
  refine assert (c := .equal x y) ⟨hx.below, hy.below⟩ ?_
  rw [Constraint.holds_equal, hx.eval, hy.eval]

theorem product (hx : s.Carries x a) (hy : s.Carries y b) (hz : s.Carries z c)
    (h : a * b = c) :
    Proves s (Builder.assert (.product x y z) : Builder n σ Unit) fun _ _ => True := by
  refine assert (c := .product x y z) ⟨hx.below, hy.below, hz.below⟩ ?_
  rw [Constraint.holds_product, hx.eval, hy.eval, hz.eval, h]

end

theorem forM {γ : Type} {xs : List γ} {g : γ → Builder n σ PUnit}
    (h : ∀ t, s.Advances t → ∀ x ∈ xs, Proves t (g x) fun _ _ => True) :
    Proves s (xs.forM g) fun _ _ => True := by
  induction xs generalizing s with
  | nil => exact pure trivial
  | cons x xs ih =>
      intro hs
      refine bind (h s (.refl hs) x List.mem_cons_self) (fun t _ hst _ => ?_) hs
      exact ih fun u htu y hy => h u (hst.trans htu) y (List.mem_cons_of_mem x hy)

theorem declare {size : Nat} {values : Builder n σ (List (Residue n))} {as : List (Residue n)}
    {author : σ} (hvalues : s.Proving → values s = .ok as { s with author })
    (hlength : as.length = size) :
    Proves s (declare size values) fun t xs => t.CarriesAll xs as := by
  intro hs
  have hauthor := Run.Advances.author hs author
  have hlazy : ({ s with author } : Run n σ).eager = false := hs.lazy
  rw [declare_of_values (.inl hs.hasValues), bind_of_ok (hvalues hs), hlength,
    if_neg (by simp), get_bind_apply, hlazy, if_neg Bool.false_ne_true]
  refine ⟨_, _, rfl, hauthor.trans (.store hauthor.proving as), ?_, ?_⟩
  · exact fun x => Expr.below_of_mem_vars
  · refine List.ext_getElem (by simp) fun i hi _ => ?_
    simpa using hauthor.proving.assignment_store as (by simpa using hi)

theorem of_map {g : α → β} (h : Proves s (m >>= fun a => Pure.pure (g a)) Q) :
    Proves s m fun t a => Q t (g a) := by
  intro hs
  obtain ⟨b, t, hrun, hst, hQ⟩ := h hs
  obtain ⟨a, u, hma, hpure⟩ := bind_eq_ok.mp hrun
  cases hpure
  exact ⟨a, t, hma, hst, hQ⟩

theorem declareWith {size : Nat} {values : Builder n σ (List (Residue n) × α)}
    {as : List (Residue n)} {a : α} {author : σ}
    (hvalues : s.Proving → values s = .ok (as, a) { s with author }) (hlength : as.length = size) :
    Proves s (declareWith size values) fun t r => t.CarriesAll r.1 as := by
  have hfst : Proves s (Builder.declareWith size values >>= fun r => Pure.pure r.1)
      fun t xs => t.CarriesAll xs as := by
    rw [fst_declareWith]
    exact declare (fun hs => bind_of_ok (hvalues hs)) hlength
  exact hfst.of_map

/-- What the constraints say about the result of an honest run is true of it. -/
theorem of_ensures {R : (Nat → Residue n) → α → Prop} (hm : Proves s m P)
    (hensures : ∀ ρ, Ensures ρ m (R ρ)) : Proves s m fun t a => P t a ∧ R t.assignment a := by
  intro hs
  obtain ⟨a, t, hrun, hst, hP⟩ := hm hs
  exact ⟨a, t, hrun, hst, hP, (hensures t.assignment).of_recordedSince hs.toRecording hrun
    hst.holds_recordedSince⟩

end Proves

end Builder

/-! ### Introducing values -/

class CircuitType.AcceptsEncodings (n : Nat) [Modulus n] (T : Type) {V : outParam Type}
    [CircuitType n T V] : Prop extends CircuitType.Lawful n T where
  check_proves : ∀ {σ : Type} {s : Run n σ} {x : T} {v : V}, s.Carries x v →
    Builder.Proves s (check (n := n) x : Builder n σ Unit) fun _ _ => True

section

open Builder

variable [Modulus n]

theorem Builder.introduce_of_proving {T V : Type} [CircuitType n T V] [CircuitType.Lawful n T]
    {s : Run n σ} {checked : Bool} {value : Builder n σ V} {v : V} {author : σ} (hs : s.Proving)
    (hvalue : witnessing value s = .ok v { s with author }) :
    ∃ (x : T) (t : Run n σ), s.Advances t ∧ t.Carries x v ∧
      (introduce checked value : Builder n σ T) s =
        ((if checked then CircuitType.check (n := n) x else pure ()) >>= fun _ => pure x) t := by
  have hencoded : encoded T (witnessing value) s =
      .ok (CircuitType.encode T v, CircuitType.valueAux v) { s with author } := bind_of_ok hvalue
  obtain ⟨r, t, hrun, hst, hxs⟩ :=
    Proves.declareWith (fun _ => hencoded) (CircuitType.Lawful.length_encode v) hs
  obtain ⟨x, hx, hexprs, -⟩ := CircuitType.Lawful.exists_ofExprs? (T := T) r.1
    (r.2.getD CircuitType.setupAux) (hxs.length_eq.trans (CircuitType.Lawful.length_encode v))
  rw [← hexprs] at hxs
  refine ⟨x, t, hst, hxs, ?_⟩
  rw [introduce_of_lazy hs.lazy, bind_of_ok hrun, hx, orAbort_some, pure_bind]

theorem Builder.witness_of_proving {T V : Type} [CircuitType n T V] [CircuitType.Lawful n T]
    {s : Run n σ} {value : Builder n σ V} {v : V} {author : σ} (hs : s.Proving)
    (hvalue : witnessing value s = .ok v { s with author }) :
    ∃ (x : T) (t : Run n σ), s.Advances t ∧ t.Carries x v ∧
      (witness value : Builder n σ T) s =
        (CircuitType.check (n := n) x >>= fun _ => pure x) t :=
  introduce_of_proving hs hvalue

theorem Builder.Proves.witness {T V : Type} [CircuitType n T V]
    [CircuitType.AcceptsEncodings n T] {s : Run n σ} {value : Builder n σ V} {v : V} {author : σ}
    (hvalue : s.Proving → witnessing value s = .ok v { s with author }) :
    Proves s (witness value : Builder n σ T) fun t x => t.Carries x v := by
  intro hs
  obtain ⟨x, t, hst, hx, hrun⟩ := witness_of_proving (T := T) hs (hvalue hs)
  have hcheck : Proves t (CircuitType.check (n := n) x >>= fun _ => Pure.pure x : Builder n σ T)
      fun u y => u.Carries y v :=
    (CircuitType.AcceptsEncodings.check_proves hx).bind fun _ _ htu _ => pure (hx.mono htu)
  obtain ⟨y, u, hrun', htu, hy⟩ := hcheck hst.proving
  exact ⟨y, u, hrun.trans hrun', hst.trans htu, hy⟩

omit [Modulus n] in
theorem Builder.witnessing_reading {V : Type} {value : Reading n V} {s : Run n σ} {v : V}
    (hv : value s.lookup = some v) :
    (witnessing (reading value) : Builder n σ V) s = .ok v s := by
  have hread : (reading value : Builder n σ V)
      (s.enter { s.context with witnessing := true }) = .ok v _ :=
    reading_eq_ok.mpr ⟨hv, rfl⟩
  simp only [witnessing, get_bind_apply]
  rw [within_of_ok hread, Run.leave_enter]

theorem Builder.Proves.compute {T V : Type} [CircuitType n T V]
    [CircuitType.AcceptsEncodings n T] {s : Run n σ} {value : Reading n V} {v : V}
    (hv : s.Reads value v) :
    Proves s (compute value : Builder n σ T) fun t x => t.Carries x v := by
  have hvalue : s.Proving → (witnessing (reading value) : Builder n σ V) s =
      .ok v { s with author := s.author } := fun hs => witnessing_reading (hv hs)
  exact Proves.witness hvalue

theorem Builder.Proves.computeUnchecked {T V : Type} [CircuitType n T V] [CircuitType.Lawful n T]
    {s : Run n σ} {value : Reading n V} {v : V} (hv : s.Reads value v) :
    Proves s (computeUnchecked value : Builder n σ T) fun t x => t.Carries x v := by
  intro hs
  have hvalue : (witnessing (reading value) : Builder n σ V) s =
      .ok v { s with author := s.author } := witnessing_reading (hv hs)
  obtain ⟨x, t, hst, hx, hrun⟩ := introduce_of_proving (T := T) hs hvalue
  exact ⟨x, t, hrun, hst, hx⟩

namespace CircuitType

instance : AcceptsEncodings n (Expr n) where
  check_proves _ := .pure trivial

instance : AcceptsEncodings n (BoolVar n) where
  check_proves hb := .boolean (Run.carries_bool.mp hb)

instance : AcceptsEncodings n (Coordinates (Expr n)) where
  check_proves _ := .pure trivial

instance : AcceptsEncodings Pasta.p ScalarVar where
  check_proves {_ _ t _} ht :=
    AcceptsEncodings.check_proves (T := BoolVar Pasta.p) (x := t.lo) (Run.carries_scalar.mp ht).1

instance {T₁ T₂ V₁ V₂ : Type} [CircuitType n T₁ V₁] [CircuitType n T₂ V₂]
    [AcceptsEncodings n T₁] [AcceptsEncodings n T₂] : AcceptsEncodings n (T₁ × T₂) where
  check_proves h := by
    obtain ⟨h₁, h₂⟩ := Run.carries_pair.mp h
    exact (AcceptsEncodings.check_proves h₁).bind fun _ _ hst _ =>
      AcceptsEncodings.check_proves (h₂.mono hst)

end CircuitType

end

end PallasCircuits
