import PallasCircuits.Proofs.Completeness
import PallasCircuits.Proofs.Composed

namespace PallasCircuits

variable {n : Nat} {σ α β : Type}

/-! What a proving run leaves alone, however it goes on. -/

namespace Run

variable [Modulus n]

/-- `t` is `s` with variables and constraints added to it. The added constraints mention
variables of `t` only, and hold where every constraint is checked. -/
structure Extends (s t : Run n σ) : Prop where
  complete : t.Complete
  evaluates : t.evaluates = s.evaluates
  publicValues : t.publicValues = s.publicValues
  nextVar_le : s.nextVar ≤ t.nextVar
  lookup : ∀ i < s.nextVar, t.lookup i = s.lookup i
  constraints : ∃ cs, t.constraints = s.constraints ++ cs ∧
    ∀ c ∈ cs, c.Below t.nextVar ∧ (s.evaluates = true → c.check t.lookup = .ok ())

namespace Extends

variable {s t u : Run n σ}

theorem refl (hs : s.Complete) : s.Extends s :=
  ⟨hs, rfl, rfl, Nat.le_refl _, fun _ _ => rfl, [], by simp, by simp⟩

theorem trans (hst : s.Extends t) (htu : t.Extends u) : s.Extends u where
  complete := htu.complete
  evaluates := htu.evaluates.trans hst.evaluates
  publicValues := htu.publicValues.trans hst.publicValues
  nextVar_le := Nat.le_trans hst.nextVar_le htu.nextVar_le
  lookup i hi := (htu.lookup i (Nat.lt_of_lt_of_le hi hst.nextVar_le)).trans (hst.lookup i hi)
  constraints := by
    obtain ⟨cs, hcs, hchecks⟩ := hst.constraints
    obtain ⟨ds, hds, hchecks'⟩ := htu.constraints
    refine ⟨cs ++ ds, by rw [hds, hcs, List.append_assoc], fun c hc => ?_⟩
    rcases List.mem_append.mp hc with hc | hc
    · obtain ⟨hbelow, hcheck⟩ := hchecks c hc
      refine ⟨hbelow.mono htu.nextVar_le, fun heval => ?_⟩
      rw [Constraint.check_congr htu.lookup hbelow, hcheck heval]
    · obtain ⟨hbelow, hcheck⟩ := hchecks' c hc
      exact ⟨hbelow, fun heval => hcheck (hst.evaluates.trans heval)⟩

theorem author (hs : s.Complete) (author : σ) : s.Extends { s with author } :=
  ⟨⟨hs.hasValues, hs.publicValues, hs.nextVar⟩, rfl, rfl, Nat.le_refl _, fun _ _ => rfl, [],
    (List.append_nil s.constraints).symm, by simp⟩

theorem enter (hs : s.Complete) (context : Context) : s.Extends (s.enter context) :=
  ⟨⟨hs.hasValues, hs.publicValues, hs.nextVar⟩, rfl, rfl, Nat.le_refl _, fun _ _ => rfl, [],
    (List.append_nil s.constraints).symm, by simp⟩

theorem leave (h : s.Extends t) (depth : Nat) : s.Extends (t.leave depth) :=
  ⟨⟨h.complete.hasValues, h.complete.publicValues, h.complete.nextVar⟩, h.evaluates,
    h.publicValues, h.nextVar_le, h.lookup, h.constraints⟩

theorem record (hs : s.Complete) {cs : List (Constraint n)} (hbelow : ∀ c ∈ cs, c.Below s.nextVar)
    (hchecks : s.evaluates = true → ∀ c ∈ cs, c.check s.lookup = .ok ()) :
    s.Extends (s.record cs) where
  complete := ⟨hs.hasValues, hs.publicValues, hs.nextVar⟩
  evaluates := rfl
  publicValues := rfl
  nextVar_le := Nat.le_refl _
  lookup _ _ := rfl
  constraints := by
    unfold Run.constraints Run.record
    cases s.system with
    | none => exact ⟨[], rfl, by simp⟩
    | some system =>
        exact ⟨cs, System.toList_constraints_append system cs,
          fun c hc => ⟨hbelow c hc, fun heval => hchecks heval c hc⟩⟩

theorem store (hs : s.Complete) (values : List (Residue n)) :
    s.Extends { s with
      nextVar := s.nextVar + values.length
      privateValues := s.privateValues ++ values } where
  complete := hs.store values
  evaluates := rfl
  publicValues := rfl
  nextVar_le := Nat.le_add_right _ _
  lookup i hi := by
    obtain ⟨a, ha⟩ := Option.isSome_iff_exists.mp (hs.lookup_isSome hi)
    rw [lookup_store ha, ha]
  constraints := ⟨[], (List.append_nil s.constraints).symm, by simp⟩

theorem advances (h : s.Extends t) (ht : t.Recording) (heval : s.evaluates = true) :
    s.Advances t where
  proving := ⟨ht, h.complete⟩
  evaluates := h.evaluates
  nextVar_le := h.nextVar_le
  assignment i hi := by rw [Run.assignment, Run.assignment, h.lookup i hi]
  constraints := by
    obtain ⟨cs, hcs, hchecks⟩ := h.constraints
    exact ⟨cs, hcs, fun c hc => (hchecks c hc).2 heval⟩

end Extends

theorem Extends.inner {s : Run n σ} (hs : s.Complete) : s.Extends s.inner := by
  unfold Run.inner
  split
  · exact refl hs
  · exact enter hs _

end Run

namespace Builder

variable [Modulus n]

/-- However `m` ends, the run is extended only. `Q` holds of the number of variables in the
end and of the result. -/
structure Keeps (s : Run n σ) (m : Builder n σ α) (Q : Nat → α → Prop) : Prop where
  ok : ∀ {a t}, m s = .ok a t → s.Extends t ∧ Q t.nextVar a
  error : ∀ {fault t}, m s = .error fault t → s.Extends t

namespace Keeps

variable {s : Run n σ} {m : Builder n σ α} {f : α → Builder n σ β} {P : Nat → α → Prop}
  {Q : Nat → β → Prop}

theorem mono {P' : Nat → α → Prop} (hm : Keeps s m P) (h : ∀ j ≥ s.nextVar, ∀ a, P j a → P' j a) :
    Keeps s m P' where
  ok hrun := by
    obtain ⟨hst, hP⟩ := hm.ok hrun
    exact ⟨hst, h _ hst.nextVar_le _ hP⟩
  error := hm.error

theorem of_eq {m' : Builder n σ α} (hm : Keeps s m' P) (heq : m s = m' s) : Keeps s m P where
  ok hrun := hm.ok (heq ▸ hrun)
  error hrun := hm.error (heq ▸ hrun)

theorem bind (hm : Keeps s m P)
    (hf : ∀ {a t}, m s = .ok a t → s.Extends t → P t.nextVar a → Keeps t (f a) Q) :
    Keeps s (m >>= f) Q where
  ok hrun := by
    obtain ⟨a, t, hma, hfb⟩ := bind_eq_ok.mp hrun
    obtain ⟨hst, hP⟩ := hm.ok hma
    obtain ⟨htu, hQ⟩ := (hf hma hst hP).ok hfb
    exact ⟨hst.trans htu, hQ⟩
  error hrun := by
    rcases bind_eq_error.mp hrun with hma | ⟨a, t, hma, hfb⟩
    · exact hm.error hma
    · obtain ⟨hst, hP⟩ := hm.ok hma
      exact hst.trans ((hf hma hst hP).error hfb)

theorem tryCatch {handler : Fault → Builder n σ α} (hm : Keeps s m P)
    (hhandler : ∀ {fault t}, m s = .error fault t → s.Extends t → Keeps t (handler fault) P) :
    Keeps s (tryCatch m handler) P := by
  cases hrun : m s with
  | ok a t =>
      have hcatch : MonadExcept.tryCatch m handler s = .ok a t := tryCatch_of_ok hrun
      exact ⟨fun h => hm.ok (hrun.trans (hcatch.symm.trans h)), by rw [hcatch]; rintro _ _ ⟨⟩⟩
  | error fault t =>
      have hst := hm.error hrun
      have hcatch : MonadExcept.tryCatch m handler s = handler fault t :=
        tryCatch_of_error hrun
      constructor
      · intro a u h
        obtain ⟨htu, hP⟩ := (hhandler hrun hst).ok (hcatch.symm.trans h)
        exact ⟨hst.trans htu, hP⟩
      · intro fault' u h
        exact hst.trans ((hhandler hrun hst).error (hcatch.symm.trans h))

section

variable (hs : s.Complete)

include hs

theorem pure {a : α} (h : P s.nextVar a) : Keeps s (pure a : Builder n σ α) P where
  ok hrun := by
    cases hrun
    exact ⟨.refl hs, h⟩
  error := by rintro _ _ ⟨⟩

theorem throw (fault : Fault) : Keeps s (throw fault : Builder n σ α) P where
  ok := by rintro _ _ ⟨⟩
  error hrun := by
    cases hrun
    exact .refl hs

theorem orAbort {o : Option α} (h : ∀ a, o = some a → P s.nextVar a) :
    Keeps s (orAbort o : Builder n σ α) P := by
  cases o with
  | none => exact throw hs .abort
  | some a => exact pure hs (h a rfl)

theorem get : Keeps s (get : Builder n σ (Run n σ)) fun _ _ => True where
  ok hrun := by
    cases hrun
    exact ⟨.refl hs, trivial⟩
  error := by rintro _ _ ⟨⟩

theorem reading (m : Reading n α) : Keeps s (reading m : Builder n σ α) fun _ _ => True where
  ok hrun := by
    obtain ⟨-, rfl⟩ := reading_eq_ok.mp hrun
    exact ⟨.refl hs, trivial⟩
  error hrun := by
    obtain ⟨-, -, rfl⟩ := reading_eq_error.mp hrun
    exact .refl hs

theorem authored (m : EStateM Fault σ α) :
    Keeps s (authored m : Builder n σ α) fun _ _ => True where
  ok hrun := by
    obtain ⟨author, -, rfl⟩ := authored_eq_ok.mp hrun
    exact ⟨.author hs author, trivial⟩
  error hrun := by
    obtain ⟨author, -, rfl⟩ := authored_eq_error.mp hrun
    exact .author hs author

theorem within {context : Context} (hm : Keeps (s.enter context) m P) :
    Keeps s (within context m) P where
  ok hrun := by
    obtain ⟨u, hinner, rfl⟩ := within_eq_ok.mp hrun
    obtain ⟨hu, hP⟩ := hm.ok hinner
    exact ⟨((Run.Extends.enter hs context).trans hu).leave _, hP⟩
  error hrun := by
    obtain ⟨u, hinner, rfl⟩ := within_eq_error.mp hrun
    exact ((Run.Extends.enter hs context).trans (hm.error hinner)).leave _

theorem constrain {cs : List (Constraint n)} (hcs : ∀ c ∈ cs, c.Below s.nextVar) :
    Keeps s (constrain cs : Builder n σ Unit) fun _ _ => True where
  ok {u t} hrun := by
    obtain ⟨hchecked, ht⟩ := constrain_eq_ok.mp hrun
    refine ⟨?_, trivial⟩
    split at ht
    · rw [ht]
      exact .refl hs
    · rw [ht]
      refine .record hs hcs fun heval => hchecked ?_
      rw [Run.checks, hs.hasValues, heval, Bool.true_or, Bool.and_true]
  error hrun := by
    obtain ⟨-, -, rfl⟩ := constrain_eq_error.mp hrun
    exact .refl hs

theorem store (values : List (Residue n)) :
    Keeps s (store values : Builder n σ (List (Expr n)))
      fun j xs => xs.length = values.length ∧ ∀ x ∈ xs, x.Below j where
  ok hrun := by
    cases hrun
    exact ⟨.store hs values, by rw [List.length_map, List.length_range],
      fun x => Expr.below_of_mem_vars⟩
  error := by rintro _ _ ⟨⟩

theorem declare {size : Nat} {values : Builder n σ (List (Residue n))}
    (hvalues : Keeps s values fun _ _ => True) :
    Keeps s (declare size values) fun j xs => xs.length = size ∧ ∀ x ∈ xs, x.Below j := by
  refine .of_eq ?_ (declare_of_values (.inl hs.hasValues))
  apply hvalues.bind
  intro xs t _ hst _
  split
  · exact throw hst.complete _
  · next hlength =>
      rw [Decidable.not_not] at hlength
      subst hlength
      cases heager : t.eager with
      | true =>
          refine .of_eq (pure hst.complete ⟨List.length_map _, fun x hx => ?_⟩)
            (by rw [get_bind_apply, heager, if_pos rfl])
          obtain ⟨a, -, rfl⟩ := List.mem_map.mp hx
          trivial
      | false =>
          exact .of_eq (store hst.complete xs)
            (by rw [get_bind_apply, heager, if_neg Bool.false_ne_true])

omit hs in
theorem of_map {g : α → β} (h : Keeps s (m >>= fun a => Pure.pure (g a)) Q) :
    Keeps s m fun j a => Q j (g a) where
  ok hrun := h.ok (bind_of_ok hrun)
  error hrun := h.error (bind_of_error hrun)

theorem declareWith {size : Nat} {values : Builder n σ (List (Residue n) × α)}
    (hvalues : Keeps s values fun _ _ => True) :
    Keeps s (declareWith size values)
      fun j r => r.1.length = size ∧ ∀ x ∈ r.1, x.Below j := by
  have hfst : Keeps s (Builder.declareWith size values >>= fun r => Pure.pure r.1)
      fun j xs => xs.length = size ∧ ∀ x ∈ xs, x.Below j := by
    rw [fst_declareWith]
    exact declare hs (hvalues.bind fun _ ht _ => pure ht.complete trivial)
  exact hfst.of_map

section

variable {T V : Type} [CircuitType n T V] [CircuitType.Lawful n T]

theorem ofExprs {exprs : List (Expr n)} {a : CircuitType.Aux n T}
    (hexprs : exprs.length = CircuitType.size n T ∧ ∀ x ∈ exprs, x.Below s.nextVar) :
    Keeps s (Builder.orAbort (CircuitType.ofExprs? exprs a) : Builder n σ T)
      fun j x => InScope (n := n) j x := by
  obtain ⟨x, hx, htoExprs, -⟩ := CircuitType.Lawful.exists_ofExprs? (T := T) exprs a hexprs.1
  refine orAbort hs fun y hy => ?_
  obtain rfl := Option.some.inj (hx.symm.trans hy)
  exact fun e he => hexprs.2 e (htoExprs ▸ he)

theorem introduce {checked : Bool} {value : Builder n σ V}
    (hvalue : Keeps s.inner value fun _ _ => True)
    (hcheck : checked = true → ∀ t, s.Extends t → ∀ x : T, InScope (n := n) t.nextVar x →
      Keeps t (CircuitType.check (n := n) x : Builder n σ Unit) fun _ _ => True) :
    Keeps s (introduce checked value : Builder n σ T) fun j x => InScope (n := n) j x := by
  cases heager : s.eager with
  | true =>
      rw [Run.inner, if_pos heager] at hvalue
      refine .of_eq ?_ (introduce_of_eager heager)
      apply hvalue.bind
      intro v t _ hst _
      refine ofExprs hst.complete ⟨?_, fun x hx => ?_⟩
      · rw [List.length_map, CircuitType.Lawful.length_encode]
      · obtain ⟨a, -, rfl⟩ := List.mem_map.mp hx
        trivial
  | false =>
      rw [Run.inner, heager, if_neg Bool.false_ne_true] at hvalue
      have hwitness : Keeps s (witnessing value) fun _ _ => True :=
        .of_eq (within hs hvalue) rfl
      refine .of_eq ?_ (introduce_of_lazy heager)
      refine (declareWith hs (hwitness.bind fun _ ht _ => pure ht.complete trivial)).bind ?_
      intro r t _ hst hexprs
      apply (ofExprs hst.complete hexprs).bind
      intro x u _ htu hx
      have hchecked : Keeps u
          (if checked then CircuitType.check (n := n) x else Pure.pure () : Builder n σ Unit)
          fun _ _ => True := by
        split
        · next h => exact hcheck h u (hst.trans htu) x hx
        · exact pure htu.complete trivial
      apply hchecked.bind
      intro _ w _ huw _
      exact pure huw.complete (hx.mono huw.nextVar_le)

theorem witnessAsync (polls : Option Nat) (future : Future σ V)
    (hcheck : ∀ t, s.Extends t → ∀ x : T, InScope (n := n) t.nextVar x →
      Keeps t (CircuitType.check (n := n) x : Builder n σ Unit) fun _ _ => True) :
    Keeps s (witnessAsync polls future : Builder n σ (Option T))
      fun j x => ∀ y, x = some y → InScope (n := n) j y := by
  cases hready : future.await? polls with
  | none =>
      refine .of_eq (pure hs ?_) (witnessAsync_of_pending hready (.inr (.inl hs.hasValues)))
      rintro _ ⟨⟩
  | some outcome =>
      have hwitness : Keeps s (witness (Builder.authored outcome) : Builder n σ T) _ :=
        introduce hs (authored (Run.Extends.inner hs).complete outcome) fun _ => hcheck
      refine .of_eq ?_ (witnessAsync_of_ready hready s)
      rw [map_eq_pure_bind]
      apply hwitness.bind
      intro x t _ hst hx
      refine pure hst.complete fun y hy => ?_
      cases hy
      exact hx

end

end

end Keeps

/-- A composed computation extends every proving run that has values for its operands. -/
theorem Composed.keeps {k : Nat} {m : Builder n σ α} {Q : Nat → α → Prop} (h : Composed k m Q)
    {s : Run n σ} (hs : s.Complete) (hk : k ≤ s.nextVar) : Keeps s m Q := by
  induction h generalizing s with
  | pure h => exact .pure hs (h _ hk)
  | throw fault => exact .throw hs fault
  | bind hm hf ihm ihf =>
      apply (ihm hs hk).bind
      intro a t _ hst hP
      exact ihf t.nextVar (Nat.le_trans hk hst.nextVar_le) a hP hst.complete (Nat.le_refl _)
  | mono hm h ih => exact (ih hs hk).mono fun j hj => h j (Nat.le_trans hk hj)
  | constrain h => exact .constrain hs fun c hc => (h c hc).mono hk
  | declare hv => exact .declare hs (.reading hs _)
  | introduce hv hcheck ih =>
      refine .introduce hs (.reading (Run.Extends.inner hs).complete _) fun hchecked t hst x hx => ?_
      exact ih hchecked t.nextVar (Nat.le_trans hk hst.nextVar_le) x hx hst.complete
        (Nat.le_refl _)

/-- Whatever the constraints say about a result is true of it once a run with all checks has
gone through. -/
theorem Composed.of_ensures {k : Nat} {m : Builder n σ α} {Q : Nat → α → Prop}
    {R : (Nat → Residue n) → α → Prop} (h : Composed k m Q) (hensures : ∀ ρ, Ensures ρ m (R ρ))
    {s t : Run n σ} {a : α} (hs : s.Proving) (hk : k ≤ s.nextVar) (heval : s.evaluates = true)
    (hrun : m s = .ok a t) : s.Advances t ∧ Q t.nextVar a ∧ R t.assignment a := by
  obtain ⟨hextends, hQ⟩ := (h.keeps hs.toComplete hk).ok hrun
  obtain ⟨ht, -⟩ := hensures t.assignment s a t hs.toRecording hrun
  have hadvances := hextends.advances ht heval
  exact ⟨hadvances, hQ, (hensures t.assignment).of_recordedSince hs.toRecording hrun
    hadvances.holds_recordedSince⟩

end Builder

end PallasCircuits
