import PallasCircuits.Proofs.Proving

namespace PallasCircuits

variable {n : Nat} {σ α : Type}

/-! What happens in eager contexts leaves no trace in the circuit. -/

def Context.eager (context : Context) : Bool :=
  !context.checked || context.witnessing

namespace Run

theorem closed_of_eager [Modulus n] {enters : Context → Prop}
    (h : ∀ context, enters context → context.eager = true) :
    Builder.Closed enters fun s t : Run n σ =>
      s.eager = true → ∃ author, t = { s with author } where
  refl s _ := ⟨s.author, rfl⟩
  trans hst htu hs := by
    obtain ⟨author, rfl⟩ := hst hs
    obtain ⟨author', rfl⟩ := htu hs
    exact ⟨author', rfl⟩
  author _ author _ := ⟨author, rfl⟩
  within {s t context} hcontext hst _ := by
    have heager : (s.enter context).eager = true := by
      cases hcontext with
      | inl hentered => exact h context hentered
      | inr hwitnessing =>
          rw [hwitnessing]
          simp [eager]
    obtain ⟨author, rfl⟩ := hst heager
    exact ⟨author, leave_enter { s with author } context⟩
  record hlazy _ hs := by rw [hs] at hlazy; cases hlazy
  store _ hlazy hs := by rw [hs] at hlazy; cases hlazy
  allocate _ hlazy _ hs := by rw [hs] at hlazy; cases hlazy

end Run

section

variable {T V : Type} [CircuitType n T V]

/-- `x` consists of the constants that `v` is encoded by. -/
structure CircuitType.Embeds (n : Nat) {T V : Type} [CircuitType n T V] (v : V) (x : T) :
    Prop where
  toExprs : toExprs (n := n) x = (encode T v).map .const
  aux : aux (n := n) x = valueAux v

theorem CircuitType.Embeds.constantValue? [Modulus n] {v : V} {x : T} (h : Embeds n v x) :
    constantValue? (n := n) x = decode? (encode (n := n) T v) (valueAux (T := T) v) := by
  have hconstants : ((encode (n := n) T v).map Expr.const).mapM Expr.toConstant? =
      some (encode T v) := by
    refine mapM_eq_some_of_map_eq ?_
    rw [List.map_map]
    exact List.map_congr_left fun a _ => Expr.toConstant?_const a
  unfold CircuitType.constantValue?
  rw [h.toExprs, hconstants, h.aux]
  rfl

theorem CircuitType.exists_ofValue? [CircuitType.Lawful n T] (v : V) :
    ∃ x : T, ofValue? n T v = some x ∧ Embeds n v x := by
  obtain ⟨x, hx, hexprs, haux⟩ := Lawful.exists_ofExprs? (T := T)
    ((encode (n := n) T v).map .const) (valueAux v)
    (by rw [List.length_map, Lawful.length_encode])
  exact ⟨x, hx, hexprs, haux⟩

namespace Builder

theorem exists_ofValue_eq [CircuitType.Lawful n T] (v : V) :
    ∃ x : T, CircuitType.Embeds n v x ∧ (ofValue v : Builder n σ T) = pure x := by
  obtain ⟨x, hx, hembeds⟩ := CircuitType.exists_ofValue? (n := n) (T := T) v
  refine ⟨x, hembeds, ?_⟩
  rw [ofValue, hx, orAbort_some]

/-- From `s`, the computation `m` ends as `value` does, with its result as constants. -/
structure Embedding (s : Run n σ) (value : Builder n σ V) (m : Builder n σ T) : Prop where
  ok : ∀ {x t}, m s = .ok x t → ∃ v, value s = .ok v t ∧ CircuitType.Embeds n v x
  returns : ∀ {v t}, value s = .ok v t → ∃ x, m s = .ok x t
  error : ∀ {fault t}, m s = .error fault t ↔ value s = .error fault t

theorem embedding_introduce [CircuitType.Lawful n T] {s : Run n σ} (hs : s.eager = true)
    (checked : Bool) (value : Builder n σ V) :
    Embedding s value (introduce checked value : Builder n σ T) := by
  have heager : (introduce checked value : Builder n σ T) s =
      (value >>= fun v => ofValue v) s := introduce_of_eager hs
  constructor
  · intro x t hrun
    rw [heager] at hrun
    obtain ⟨v, u, hvalue, hreturn⟩ := bind_eq_ok.mp hrun
    obtain ⟨y, hy, hpure⟩ := exists_ofValue_eq (n := n) (σ := σ) (T := T) v
    rw [hpure] at hreturn
    cases hreturn
    exact ⟨v, hvalue, hy⟩
  · intro v t hvalue
    obtain ⟨x, -, hpure⟩ := exists_ofValue_eq (n := n) (σ := σ) (T := T) v
    rw [heager, bind_of_ok hvalue, hpure]
    exact ⟨x, rfl⟩
  · intro fault t
    rw [heager, bind_eq_error]
    apply or_iff_left
    rintro ⟨v, u, -, hreturn⟩
    obtain ⟨x, -, hpure⟩ := exists_ofValue_eq (n := n) (σ := σ) (T := T) v
    rw [hpure] at hreturn
    cases hreturn

theorem embeds_of_witnessAsync [CircuitType.Lawful n T] {s t : Run n σ} (hs : s.eager = true)
    {polls : Option Nat} {future : Future σ V} {x : T}
    (hrun : witnessAsync polls future s = .ok (some x) t) :
    ∃ outcome v, future.await? polls = some outcome ∧ authored outcome s = .ok v t ∧
      CircuitType.Embeds n v x := by
  cases hready : future.await? polls with
  | none =>
      rw [witnessAsync_of_pending hready (.inl hs)] at hrun
      cases hrun
  | some outcome =>
      rw [witnessAsync_of_ready hready, map_eq_pure_bind] at hrun
      obtain ⟨y, u, hwitness, hreturn⟩ := bind_eq_ok.mp hrun
      cases hreturn
      obtain ⟨v, hvalue, hx⟩ := (embedding_introduce hs true (authored outcome)).ok hwitness
      exact ⟨outcome, v, rfl, hvalue, hx⟩

end Builder

end

namespace Builder

variable [Modulus n]

theorem Regular.unchanged {m : Builder n σ α} (hm : Regular (fun context => context.eager = true) m)
    {s : Run n σ} (hs : s.eager = true) :
    (∀ a t, m s = .ok a t → ∃ author, t = { s with author }) ∧
      ∀ fault t, m s = .error fault t → ∃ author, t = { s with author } := by
  have hpreserves := hm.preserves (Run.closed_of_eager fun _ heager => heager)
  exact ⟨fun a t hrun => (hpreserves.ok hrun).1 hs, fun fault t hrun => hpreserves.error hrun hs⟩

theorem declare_eq_ok_of_eager {size : Nat} {values : Builder n σ (List (Residue n))}
    (hvalues : Regular (fun context => context.eager = true) values) {s t : Run n σ}
    (hs : s.eager = true) {xs : List (Expr n)} :
    declare size values s = .ok xs t ↔
      ∃ vs, values s = .ok vs t ∧ vs.length = size ∧ xs = vs.map .const := by
  rw [declare_of_values (.inr hs), bind_eq_ok]
  refine exists_congr fun vs => ?_
  constructor
  · rintro ⟨u, hrun, hrest⟩
    obtain ⟨author, rfl⟩ := (hvalues.unchanged hs).1 vs u hrun
    have heager : ({ s with author } : Run n σ).eager = true := hs
    split at hrest
    · cases hrest
    · next hlength =>
        rw [get_bind_apply, heager] at hrest
        cases hrest
        exact ⟨hrun, Decidable.not_not.mp hlength, rfl⟩
  · rintro ⟨hrun, hlength, rfl⟩
    obtain ⟨author, rfl⟩ := (hvalues.unchanged hs).1 vs t hrun
    have heager : ({ s with author } : Run n σ).eager = true := hs
    refine ⟨_, hrun, ?_⟩
    rw [if_neg (not_not_intro hlength), get_bind_apply, heager]
    rfl

end Builder

/-- Eager contexts leave the circuit alone. However a computation ends in one, with a result or
with a fault, all but the author's data is as it was. What it declares or introduces there are
the constants that encode the values provided, and it fails only where these are not. -/
theorem Run.untouched_of_eager [Modulus n] {s : Run n σ} (hs : s.eager = true) :
    (∀ {α : Type} (m : Builder n σ α),
      Builder.Regular (fun context => context.eager = true) m →
        (∀ a t, m s = .ok a t → ∃ author, t = { s with author }) ∧
          ∀ fault t, m s = .error fault t → ∃ author, t = { s with author }) ∧
    (∀ (size : Nat) (values : Builder n σ (List (Residue n))),
      Builder.Regular (fun context => context.eager = true) values → ∀ xs t,
        Builder.declare size values s = .ok xs t ↔
          ∃ vs, values s = .ok vs t ∧ vs.length = size ∧ xs = vs.map .const) ∧
    (∀ {T V : Type} [CircuitType n T V] [CircuitType.Lawful n T] (checked : Bool)
      (value : Builder n σ V),
      (∀ (x : T) t, Builder.introduce checked value s = .ok x t →
        ∃ v, value s = .ok v t ∧
          CircuitType.toExprs (n := n) x = (CircuitType.encode T v).map .const ∧
          CircuitType.constantValue? (n := n) x =
            CircuitType.decode? (CircuitType.encode (n := n) T v)
              (CircuitType.valueAux (T := T) v)) ∧
      (∀ v t, value s = .ok v t → ∃ x : T, Builder.introduce checked value s = .ok x t) ∧
      ∀ fault t, (Builder.introduce checked value : Builder n σ T) s = .error fault t ↔
        value s = .error fault t) ∧
    ∀ {T V : Type} [CircuitType n T V] [CircuitType.Lawful n T] (polls : Option Nat)
      (future : Future σ V) (x : T) t, Builder.witnessAsync polls future s = .ok (some x) t →
        ∃ outcome v, future.await? polls = some outcome ∧
          Builder.authored outcome s = .ok v t ∧
          CircuitType.toExprs (n := n) x = (CircuitType.encode T v).map .const ∧
          CircuitType.constantValue? (n := n) x =
            CircuitType.decode? (CircuitType.encode (n := n) T v)
              (CircuitType.valueAux (T := T) v) := by
  refine ⟨fun m hm => hm.unchanged hs, fun size values hvalues xs t =>
    Builder.declare_eq_ok_of_eager hvalues hs, ?_, ?_⟩
  · intro T V _ _ checked value
    have hembedding : Builder.Embedding s value (Builder.introduce checked value : Builder n σ T) :=
      Builder.embedding_introduce hs checked value
    refine ⟨fun x t hrun => ?_, fun v t => hembedding.returns, fun fault t => hembedding.error⟩
    obtain ⟨v, hvalue, hx⟩ := hembedding.ok hrun
    exact ⟨v, hvalue, hx.toExprs, hx.constantValue?⟩
  · intro T V _ _ polls future x t hrun
    obtain ⟨outcome, v, hready, hvalue, hx⟩ := Builder.embeds_of_witnessAsync hs hrun
    exact ⟨outcome, v, hready, hvalue, hx.toExprs, hx.constantValue?⟩

theorem Run.untouched_of_eager_provideRoot :
    ∃ s t : Run Pasta.p Fp, s = (Run.proof [9] 4).enter ⟨true, true⟩ ∧
      provideRoot get (.const 9) s = .error (.setup (.unequalConstants 16 9)) t ∧
      t.nextVar = 1 ∧ t.privateValues = #[] ∧ t.constraints = [] ∧
      ∃ (x : Expr Pasta.p) (u : Run Pasta.p Fp), Builder.witness (pure (3 : Fp)) s = .ok x u ∧
        CircuitType.constantValue? (n := Pasta.p) x = some 3 := by
  let s : Run Pasta.p Fp := (Run.proof [9] 4).enter ⟨true, true⟩
  have hfails : (match provideRoot get (.const 9) s with
      | .ok _ _ => false
      | .error fault _ => fault = .setup (.unequalConstants 16 9)) = true := by
    decide +kernel
  obtain ⟨hunchanged, -, hintroduce, -⟩ := untouched_of_eager (s := s) rfl
  obtain ⟨hvalue, hreturns, -⟩ := hintroduce (T := Expr Pasta.p) true (pure (3 : Fp))
  obtain ⟨x, hx⟩ := hreturns 3 s rfl
  obtain ⟨v, hv, -, hconstant⟩ := hvalue x s hx
  cases hv
  split at hfails
  · cases hfails
  · next fault t hrun =>
      obtain rfl := of_decide_eq_true hfails
      obtain ⟨author, rfl⟩ := (hunchanged _ (regular_provideRoot get (.const 9))).2 _ t hrun
      exact ⟨s, _, rfl, hrun, rfl, rfl, rfl, x, s, hx, hconstant⟩

/-! ### Assertions -/

namespace Builder

/-- In this state `m` either passes, and leaves everything as it is, or finds a violation. -/
structure Tests (s : Run n σ) (m : Builder n σ Unit) (accepted : Prop) : Prop where
  passes : accepted → m s = .ok () s
  rejects : ¬accepted → ∃ violation, m s = .error (.violation violation) s

namespace Tests

variable {s : Run n σ} {m m' : Builder n σ Unit} {P Q : Prop}

theorem iff (hm : Tests s m P) (h : P ↔ Q) : Tests s m Q where
  passes hQ := hm.passes (h.mpr hQ)
  rejects hQ := hm.rejects fun hP => hQ (h.mp hP)

theorem of_eq (hm : Tests s m P) (h : m' s = m s) : Tests s m' P where
  passes hP := h.trans (hm.passes hP)
  rejects hP := by
    rw [h]
    exact hm.rejects hP

theorem bind (hm : Tests s m P) (hm' : P → Tests s m' Q) :
    Tests s (m >>= fun _ => m') (P ∧ Q) where
  passes h := (bind_of_ok (hm.passes h.1)).trans ((hm' h.1).passes h.2)
  rejects h := by
    by_cases hP : P
    · obtain ⟨violation, hfault⟩ := (hm' hP).rejects fun hQ => h ⟨hP, hQ⟩
      exact ⟨violation, (bind_of_ok (hm.passes hP)).trans hfault⟩
    · obtain ⟨violation, hfault⟩ := hm.rejects hP
      exact ⟨violation, bind_of_error hfault⟩

end Tests

theorem assert_of_eager [Modulus n] {s : Run n σ} (hs : s.eager = true)
    (hvalues : s.hasValues = true) (c : Constraint n) : assert c s = check c s := by
  have hchecks : s.checks = true := by simp [Run.checks, hs, hvalues]
  cases hcheck : c.check s.lookup with
  | ok u =>
      have hok : check c s = .ok () s := check_eq_ok.mpr ⟨hcheck, rfl⟩
      rw [hok]
      refine constrain_eq_ok.mpr ⟨fun _ => List.forall_mem_singleton.mpr hcheck, ?_⟩
      rw [hs, if_pos rfl]
  | error fault =>
      have hfault : check c s = .error fault s := check_eq_error.mpr ⟨hcheck, rfl⟩
      rw [hfault, assert, constrain_apply, hchecks, if_pos rfl]
      exact bind_of_error (bind_of_error hfault)

end Builder

end PallasCircuits
