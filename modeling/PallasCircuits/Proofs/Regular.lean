import PallasCircuits.Proofs.Operation

namespace PallasCircuits

variable {n : Nat} [Modulus n] {σ α β : Type}

namespace Builder

/-- Computations that change a run by the operations of the library only. They may look at
all of it, and enter the contexts that `enters` admits. -/
inductive Regular {n : Nat} [Modulus n] {σ : Type} (enters : Context → Prop) :
    {α : Type} → Builder n σ α → Prop
  | pure {α : Type} (a : α) : Regular enters (pure a)
  | throw {α : Type} (fault : Fault) : Regular enters (throw fault : Builder n σ α)
  | bind {α β : Type} {m : Builder n σ α} {f : α → Builder n σ β} (hm : Regular enters m)
      (hf : ∀ a, Regular enters (f a)) : Regular enters (m >>= f)
  | tryCatch {α : Type} {m : Builder n σ α} {handler : Fault → Builder n σ α}
      (hm : Regular enters m) (hhandler : ∀ fault, Regular enters (handler fault)) :
      Regular enters (tryCatch m handler)
  | get : Regular enters get
  | reading {α : Type} (m : Reading n α) : Regular enters (reading m)
  | authored {α : Type} (m : EStateM Fault σ α) : Regular enters (authored m)
  | within {α : Type} {context : Context} {m : Builder n σ α} (hcontext : enters context)
      (hm : Regular enters m) : Regular enters (within context m)
  | operation {α : Type} {k : Nat} {m : Builder n σ α} {Q : Nat → α → Prop}
      (h : Operation k m Q) : Regular enters m
  | declare {values : Builder n σ (List (Residue n))} (size : Nat)
      (hvalues : Regular enters values) : Regular enters (declare size values)
  | introduce {T V : Type} [CircuitType n T V] {value : Builder n σ V} (checked : Bool)
      (hvalue : Regular enters value)
      (hcheck : ∀ x : T, Regular enters (CircuitType.check (n := n) x : Builder n σ Unit)) :
      Regular enters (introduce checked value : Builder n σ T)
  | witnessAsync {T V : Type} [CircuitType n T V] (polls : Option Nat) (value : Future σ V)
      (hcheck : ∀ x : T, Regular enters (CircuitType.check (n := n) x : Builder n σ Unit)) :
      Regular enters (witnessAsync polls value : Builder n σ (Option T))

/-- A relation between states of a run that each single change keeps up. -/
structure Closed (enters : Context → Prop) (R : Run n σ → Run n σ → Prop) : Prop where
  refl : ∀ s, R s s
  trans : ∀ {s t u}, R s t → R t u → R s u
  author : ∀ s author, R s { s with author }
  within : ∀ {s t context}, enters context ∨ context = { s.context with witnessing := true } →
    R (s.enter context) t → R s (t.leave s.contexts.length)
  record : ∀ {s cs}, s.eager = false →
    (s.checks = true → ∀ c ∈ cs, c.check s.lookup = .ok ()) → R s (s.record cs)
  store : ∀ {s} (values : List (Residue n)), s.eager = false →
    R s { s with
      nextVar := s.nextVar + values.length
      privateValues := s.privateValues ++ values }
  allocate : ∀ {s} (count : Nat), s.eager = false → s.hasValues = false →
    R s { s with nextVar := s.nextVar + count }

/-- However `m` ends, the state it leaves is related to the one it found. -/
structure Preserves (R : Run n σ → Run n σ → Prop) (m : Builder n σ α) (P : α → Prop) :
    Prop where
  ok : ∀ {s a t}, m s = .ok a t → R s t ∧ P a
  error : ∀ {s fault t}, m s = .error fault t → R s t

namespace Preserves

variable {enters : Context → Prop} {R : Run n σ → Run n σ → Prop} (hR : Closed enters R)
  {m : Builder n σ α} {f : α → Builder n σ β} {P : α → Prop} {Q : β → Prop}

omit [Modulus n] in
theorem mono {P' : α → Prop} (hm : Preserves R m P) (h : ∀ a, P a → P' a) :
    Preserves R m P' where
  ok hrun := ⟨(hm.ok hrun).1, h _ (hm.ok hrun).2⟩
  error := hm.error

omit [Modulus n] in
theorem of_ok (h : ∀ s, ∃ a t, m s = .ok a t ∧ R s t ∧ P a) : Preserves R m P where
  ok {s a t} hrun := by
    obtain ⟨b, u, hstep, hsu, hb⟩ := h s
    rw [hstep] at hrun
    cases hrun
    exact ⟨hsu, hb⟩
  error {s fault t} hrun := by
    obtain ⟨b, u, hstep, -⟩ := h s
    rw [hstep] at hrun
    cases hrun

include hR

theorem pure {a : α} (h : P a) : Preserves R (pure a) P :=
  of_ok fun s => ⟨a, s, rfl, hR.refl s, h⟩

theorem throw (fault : Fault) : Preserves R (throw fault : Builder n σ α) P where
  ok := by rintro _ _ _ ⟨⟩
  error hrun := by
    cases hrun
    exact hR.refl _

theorem bind (hm : Preserves R m P) (hf : ∀ a, P a → Preserves R (f a) Q) :
    Preserves R (m >>= f) Q where
  ok hrun := by
    obtain ⟨a, t, hma, hfb⟩ := bind_eq_ok.mp hrun
    obtain ⟨hst, hP⟩ := hm.ok hma
    obtain ⟨htu, hQ⟩ := (hf a hP).ok hfb
    exact ⟨hR.trans hst htu, hQ⟩
  error hrun := by
    rcases bind_eq_error.mp hrun with hma | ⟨a, t, hma, hfb⟩
    · exact hm.error hma
    · obtain ⟨hst, hP⟩ := hm.ok hma
      exact hR.trans hst ((hf a hP).error hfb)

theorem tryCatch {handler : Fault → Builder n σ α} (hm : Preserves R m P)
    (hhandler : ∀ fault, Preserves R (handler fault) P) :
    Preserves R (tryCatch m handler) P where
  ok {s a t} hrun := by
    cases hms : m s with
    | ok b u =>
        rw [tryCatch_of_ok hms] at hrun
        cases hrun
        exact hm.ok hms
    | error fault u =>
        rw [tryCatch_of_error hms] at hrun
        obtain ⟨hut, hP⟩ := (hhandler fault).ok hrun
        exact ⟨hR.trans (hm.error hms) hut, hP⟩
  error {s fault t} hrun := by
    cases hms : m s with
    | ok b u =>
        rw [tryCatch_of_ok hms] at hrun
        cases hrun
    | error fault' u =>
        rw [tryCatch_of_error hms] at hrun
        exact hR.trans (hm.error hms) ((hhandler fault').error hrun)

theorem get : Preserves R (get : Builder n σ (Run n σ)) fun _ => True :=
  of_ok fun s => ⟨s, s, rfl, hR.refl s, trivial⟩

theorem reading (m : Reading n α) : Preserves R (reading m) fun _ => True where
  ok hrun := by
    obtain ⟨-, rfl⟩ := reading_eq_ok.mp hrun
    exact ⟨hR.refl _, trivial⟩
  error hrun := by
    obtain ⟨-, -, rfl⟩ := reading_eq_error.mp hrun
    exact hR.refl _

theorem authored (m : EStateM Fault σ α) : Preserves R (authored m) fun _ => True where
  ok {s a t} hrun := by
    obtain ⟨author, -, rfl⟩ := authored_eq_ok.mp hrun
    exact ⟨hR.author s author, trivial⟩
  error {s fault t} hrun := by
    obtain ⟨author, -, rfl⟩ := authored_eq_error.mp hrun
    exact hR.author s author

theorem orAbort (o : Option α) : Preserves R (orAbort o) fun _ => True := by
  cases o with
  | none => exact throw hR .abort
  | some a => exact pure hR trivial

theorem constrain (cs : List (Constraint n)) :
    Preserves R (constrain cs) fun _ => True where
  ok {s u t} hrun := by
    obtain ⟨hchecked, ht⟩ := constrain_eq_ok.mp hrun
    refine ⟨?_, trivial⟩
    cases heager : s.eager with
    | true =>
        rw [heager, if_pos rfl] at ht
        rw [ht]
        exact hR.refl s
    | false =>
        rw [heager, if_neg Bool.false_ne_true] at ht
        rw [ht]
        exact hR.record heager hchecked
  error hrun := by
    obtain ⟨-, -, ht⟩ := constrain_eq_error.mp hrun
    rw [ht]
    exact hR.refl _

theorem enter {context : Context} {s : Run n σ}
    (hcontext : enters context ∨ context = { s.context with witnessing := true })
    (hm : Preserves R m P) :
    (∀ {a t}, Builder.within context m s = .ok a t → R s t ∧ P a) ∧
      ∀ {fault t}, Builder.within context m s = .error fault t → R s t := by
  constructor
  · intro a t hrun
    obtain ⟨u, hinner, rfl⟩ := within_eq_ok.mp hrun
    obtain ⟨hu, hP⟩ := hm.ok hinner
    exact ⟨hR.within hcontext hu, hP⟩
  · intro fault t hrun
    obtain ⟨u, hinner, rfl⟩ := within_eq_error.mp hrun
    exact hR.within hcontext (hm.error hinner)

theorem within {context : Context} (hcontext : enters context) (hm : Preserves R m P) :
    Preserves R (within context m) P where
  ok hrun := (enter hR (.inl hcontext) hm).1 hrun
  error hrun := (enter hR (.inl hcontext) hm).2 hrun

theorem witnessing (hm : Preserves R m P) : Preserves R (witnessing m) P where
  ok hrun := (enter hR (.inr rfl) hm).1 hrun
  error hrun := (enter hR (.inr rfl) hm).2 hrun

omit [Modulus n] hR in
theorem of_forall (h : ∀ s, ∃ m' : Builder n σ α, m s = m' s ∧ Preserves R m' P) :
    Preserves R m P where
  ok {s a t} hrun := by
    obtain ⟨m', heq, hm'⟩ := h s
    exact hm'.ok (heq ▸ hrun)
  error {s fault t} hrun := by
    obtain ⟨m', heq, hm'⟩ := h s
    exact hm'.error (heq ▸ hrun)

theorem place {size : Nat} {values : List (Residue n)} (hlength : values.length = size) :
    Preserves R (do if (← MonadState.get).eager then return values.map .const else store values)
      fun xs => xs.length = size := by
  refine of_ok fun s => ?_
  rw [get_bind_apply]
  cases heager : s.eager with
  | true => exact ⟨_, s, rfl, hR.refl s, by rwa [List.length_map]⟩
  | false =>
      exact ⟨_, _, rfl, hR.store values heager, by rwa [List.length_map, List.length_range]⟩

theorem declare {size : Nat} {values : Builder n σ (List (Residue n))}
    (hvalues : Preserves R values fun _ => True) :
    Preserves R (declare size values) fun xs => xs.length = size := by
  have hsupplied : Preserves R (values >>= fun values =>
      if values.length ≠ size then failRun (.valueCount values.length size)
      else MonadState.get >>= fun t : Run n σ =>
        if t.eager then Pure.pure (values.map .const) else store values)
      fun xs => xs.length = size := by
    apply bind hR hvalues
    intro xs _
    split
    · exact throw hR _
    · next hlength => exact place hR (Decidable.not_not.mp hlength)
  have hallocated : ∀ {s xs t}, s.hasValues = false → s.eager = false →
      allocate size s = .ok xs t → R s t ∧ xs.length = size := by
    intro s xs t hphase heager hrun
    cases hrun
    exact ⟨hR.allocate size heager hphase, by rw [List.length_map, List.length_range]⟩
  constructor
  · intro s xs t hrun
    by_cases h : s.hasValues = true ∨ s.eager = true
    · rw [declare_of_values h] at hrun
      exact hsupplied.ok hrun
    · rw [not_or, Bool.not_eq_true, Bool.not_eq_true] at h
      rw [declare_of_setup h.1 h.2] at hrun
      exact hallocated h.1 h.2 hrun
  · intro s fault t hrun
    by_cases h : s.hasValues = true ∨ s.eager = true
    · rw [declare_of_values h] at hrun
      exact hsupplied.error hrun
    · rw [not_or, Bool.not_eq_true, Bool.not_eq_true] at h
      rw [declare_of_setup h.1 h.2] at hrun
      cases hrun

omit [Modulus n] hR in
theorem of_map {g : α → β} (h : Preserves R (m >>= fun a => Pure.pure (g a)) Q) :
    Preserves R m fun a => Q (g a) where
  ok hrun := h.ok (bind_of_ok hrun)
  error hrun := h.error (bind_of_error hrun)

theorem declareWith {size : Nat} {values : Builder n σ (List (Residue n) × α)}
    (hvalues : Preserves R values fun _ => True) :
    Preserves R (declareWith size values) fun r => r.1.length = size := by
  have hfst : Preserves R (Builder.declareWith size values >>= fun r => Pure.pure r.1)
      fun xs => xs.length = size := by
    rw [fst_declareWith]
    exact declare hR (bind hR hvalues fun _ _ => pure hR trivial)
  exact hfst.of_map

section

variable {T V : Type} [CircuitType n T V]

theorem introduce {checked : Bool} {value : Builder n σ V}
    (hvalue : Preserves R value fun _ => True)
    (hcheck : checked = true → ∀ x : T,
      Preserves R (CircuitType.check (n := n) x : Builder n σ Unit) fun _ => True) :
    Preserves R (introduce checked value : Builder n σ T) fun _ => True := by
  apply of_forall
  intro s
  cases heager : s.eager with
  | true =>
      refine ⟨_, introduce_of_eager heager, ?_⟩
      exact bind hR hvalue fun v _ => orAbort hR _
  | false =>
      refine ⟨_, introduce_of_lazy heager, ?_⟩
      refine bind hR (declareWith hR (bind hR (witnessing hR hvalue) fun _ _ =>
        pure hR trivial)) fun r _ => ?_
      apply bind hR (orAbort hR _)
      intro x _
      refine bind hR (P := fun _ => True) ?_ fun _ _ => pure hR trivial
      cases checked with
      | true => exact hcheck rfl x
      | false => exact pure hR trivial

theorem witnessAsync (polls : Option Nat) (future : Future σ V)
    (hcheck : ∀ x : T,
      Preserves R (CircuitType.check (n := n) x : Builder n σ Unit) fun _ => True) :
    Preserves R (witnessAsync polls future : Builder n σ (Option T)) fun _ => True := by
  have hwitness : ∀ m : EStateM Fault σ V,
      Preserves R (some <$> witness (Builder.authored m) : Builder n σ (Option T))
        fun _ => True := by
    intro m
    rw [map_eq_pure_bind]
    refine bind hR (introduce hR (authored hR m) fun _ => hcheck) fun _ _ => ?_
    exact pure hR trivial
  apply of_forall
  intro s
  cases hready : future.await? polls with
  | some outcome => exact ⟨_, witnessAsync_of_ready hready s, hwitness outcome⟩
  | none =>
      by_cases hneeded : s.eager = true ∨ s.hasValues = true ∨ polls = some 0
      · exact ⟨_, witnessAsync_of_pending hready hneeded, pure hR trivial⟩
      · simp only [not_or, Bool.not_eq_true] at hneeded
        obtain ⟨heager, hvalues, hpolls⟩ := hneeded
        exact ⟨_, witnessAsync_of_setup hvalues heager hpolls _,
          hwitness future.outcome⟩

end

end Preserves

theorem Composed.preserves {enters : Context → Prop} {R : Run n σ → Run n σ → Prop}
    (hR : Closed enters R) {k : Nat} {m : Builder n σ α} {Q : Nat → α → Prop}
    (h : Composed k m Q) : Preserves R m fun a => ∃ j ≥ k, Q j a := by
  induction h with
  | pure h => exact .pure hR ⟨_, Nat.le_refl _, h _ (Nat.le_refl _)⟩
  | throw fault => exact .throw hR fault
  | bind hm hf ihm ihf =>
      refine .bind hR ihm fun a ⟨j, hj, ha⟩ => (ihf j hj a ha).mono fun b ⟨i, hi, hb⟩ => ?_
      exact ⟨i, Nat.le_trans hj hi, hb⟩
  | mono hm h ih => exact ih.mono fun a ⟨j, hj, ha⟩ => ⟨j, hj, h j hj a ha⟩
  | constrain h => exact (Preserves.constrain hR _).mono fun _ _ => ⟨_, Nat.le_refl _, trivial⟩
  | @declare k size v hv =>
      apply (Preserves.declare hR (.reading hR v)).mono
      intro xs hxs
      obtain ⟨j, hj⟩ := Expr.exists_below xs
      refine ⟨max j k, Nat.le_max_right j k, hxs, fun x hx => ?_⟩
      exact (hj x hx).mono (Nat.le_max_left j k)
  | @introduce k T V _ _ _ checked v hv hcheck ih =>
      have hsome : ∀ x : T, ∃ j ≥ k, InScope (n := n) j x := by
        intro x
        obtain ⟨j, hj⟩ := Expr.exists_below (CircuitType.toExprs (n := n) x)
        exact ⟨max j k, Nat.le_max_right j k, fun e he => (hj e he).mono (Nat.le_max_left j k)⟩
      refine (Preserves.introduce hR (.reading hR v) fun hchecked x => ?_).mono
        fun x _ => hsome x
      obtain ⟨j, hj, hx⟩ := hsome x
      exact (ih hchecked j hj x hx).mono fun _ _ => trivial

/-- What each change keeps up is kept up by every regular computation, whether it ends well
or not. -/
theorem Regular.preserves {enters : Context → Prop} {R : Run n σ → Run n σ → Prop}
    (hR : Closed enters R) {m : Builder n σ α} (h : Regular enters m) :
    Preserves R m fun _ => True := by
  induction h with
  | pure a => exact .pure hR trivial
  | throw fault => exact .throw hR fault
  | bind hm hf ihm ihf => exact .bind hR ihm fun a _ => ihf a
  | tryCatch hm hhandler ihm ihhandler => exact .tryCatch hR ihm ihhandler
  | get => exact .get hR
  | reading m => exact .reading hR m
  | authored m => exact .authored hR m
  | within hcontext hm ih => exact .within hR hcontext ih
  | operation h => exact (h.composed.preserves hR).mono fun _ _ => trivial
  | declare size hvalues ih => exact (Preserves.declare hR ih).mono fun _ _ => trivial
  | introduce checked hvalue hcheck ihvalue ihcheck =>
      exact .introduce hR ihvalue fun _ => ihcheck
  | witnessAsync polls value hcheck ih => exact .witnessAsync hR polls value ih

end Builder

end PallasCircuits
