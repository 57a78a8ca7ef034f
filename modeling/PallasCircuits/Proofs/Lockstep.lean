import PallasCircuits.Proofs.Composed
import PallasCircuits.Proofs.Setup
import PallasCircuits.Proofs.Values

namespace PallasCircuits

variable {n : Nat} {σ α β : Type}

namespace Run

/-- A proving run `t` that has come as far as the setup run `s`. -/
structure Lockstep (evaluates : Bool) (s t : Run n σ) : Prop where
  settingUp : s.SettingUp
  complete : t.Complete
  evaluates : t.evaluates = evaluates
  contexts : t.contexts = s.contexts
  system : t.system = s.system
  nextVar : t.nextVar = s.nextVar

structure Supplied (k : Nat) (s : Run n σ) : Prop where
  hasValues : s.hasValues = true
  lookup : ∀ i < k, (s.lookup i).isSome = true

namespace Lockstep

variable {evaluates : Bool} {s t : Run n σ}

theorem lazy (h : s.Lockstep evaluates t) : t.eager = false := by
  unfold eager context
  rw [h.contexts]
  exact h.settingUp.lazy

theorem supplied (h : s.Lockstep evaluates t) {k : Nat} (hk : k ≤ s.nextVar) :
    t.Supplied k where
  hasValues := h.complete.hasValues
  lookup _ hi := h.complete.lookup_isSome (h.nextVar ▸ Nat.lt_of_lt_of_le hi hk)

theorem store (h : s.Lockstep evaluates t) (author : σ) (values : List (Residue n)) :
    ({ s with nextVar := s.nextVar + values.length } : Run n σ).Lockstep evaluates
      { t with
        author
        nextVar := t.nextVar + values.length
        privateValues := t.privateValues ++ values } where
  settingUp := ⟨⟨h.settingUp.lazy, h.settingUp.system⟩, h.settingUp.valueless⟩
  complete :=
    have hstored := h.complete.store values
    ⟨hstored.hasValues, hstored.publicValues, hstored.nextVar⟩
  evaluates := h.evaluates
  contexts := h.contexts
  system := h.system
  nextVar := congrArg (· + values.length) h.nextVar

theorem record (h : s.Lockstep evaluates t) (cs : List (Constraint n)) :
    (s.record cs).Lockstep evaluates (t.record cs) where
  settingUp := ⟨h.settingUp.toRecording.record cs, h.settingUp.valueless⟩
  complete := ⟨h.complete.hasValues, h.complete.publicValues, h.complete.nextVar⟩
  evaluates := h.evaluates
  contexts := h.contexts
  system := congrArg (Option.map _) h.system
  nextVar := h.nextVar

end Lockstep

end Run

/-- The same expressions, all of them below `k`, make up both values. These only differ in what
they carry along. -/
structure Alike {T V : Type} [CircuitType n T V] (k : Nat) (x x' : T) : Prop where
  inScope : InScope (n := n) k x
  toExprs_eq : CircuitType.toExprs (n := n) x = CircuitType.toExprs x'

namespace Alike

variable {T V : Type} [CircuitType n T V] {j k : Nat} {x x' : T}

theorem mono (h : Alike (n := n) j x x') (hjk : j ≤ k) : Alike (n := n) k x x' :=
  ⟨h.inScope.mono hjk, h.toExprs_eq⟩

theorem right (h : Alike (n := n) k x x') : InScope (n := n) k x' :=
  fun e he => h.inScope e (h.toExprs_eq ▸ he)

theorem eq [CircuitType.Plain n T] (h : Alike (n := n) k x x') : x = x' :=
  CircuitType.Plain.eq_of_toExprs_eq h.toExprs_eq

end Alike

namespace Builder

def Raises (m : Builder n σ α) (s : Run n σ) (fault : Fault) : Prop :=
  ∃ t, m s = .error fault t

/-- In contexts that are eager or not, `m` leaves all but the author's data alone. -/
def AuthorOnly (eager : Bool) (m : Builder n σ α) : Prop :=
  ∀ ⦃s : Run n σ⦄, s.eager = eager → ∀ ⦃a t⦄, m s = .ok a t → ∃ author, t = { s with author }

namespace AuthorOnly

variable {eager : Bool} {m : Builder n σ α}

theorem reading (v : Reading n α) : AuthorOnly eager (reading v : Builder n σ α) := by
  intro s _ a t hrun
  exact ⟨s.author, (reading_eq_ok.mp hrun).2⟩

theorem map (f : α → β) (hm : AuthorOnly eager m) : AuthorOnly eager (m >>= fun a => pure (f a)) := by
  intro s heager b t hrun
  obtain ⟨a, u, hma, hpure⟩ := bind_eq_ok.mp hrun
  cases hpure
  exact hm heager hma

theorem witnessing (hm : AuthorOnly true m) : AuthorOnly eager (witnessing m) := by
  intro s _ a t hrun
  obtain ⟨u, hinner, rfl⟩ := within_eq_ok.mp hrun
  have heager : (s.enter { s.context with witnessing := true }).eager = true := by
    simp [Run.eager]
  obtain ⟨author, rfl⟩ := hm heager hinner
  exact ⟨author, Run.leave_enter { s with author } { s.context with witnessing := true }⟩

end AuthorOnly

namespace Raises

variable {m : Builder n σ α} {s : Run n σ} {fault : Fault}

theorem of_witnessing (hlazy : s.eager = false) (h : Raises (witnessing m) s fault) :
    Raises m s.inner fault := by
  obtain ⟨t, hrun⟩ := h
  obtain ⟨u, hinner, -⟩ := within_eq_error.mp hrun
  rw [Run.inner, hlazy, if_neg Bool.false_ne_true]
  exact ⟨u, hinner⟩

theorem of_map {f : α → β} (h : Raises (m >>= fun a => pure (f a)) s fault) :
    Raises m s fault := by
  obtain ⟨t, hrun⟩ := h
  exact ⟨t, bind_pure_eq_error.mp hrun⟩

end Raises

theorem not_raises_reading {v : Reading n α} {k : Nat} {P : α → Prop} (hv : Answers k v P)
    {s : Run n σ} (hs : ∀ i < k, (s.lookup i).isSome = true) (fault : Fault) :
    ¬Raises (reading v : Builder n σ α) s fault := by
  rintro ⟨t, hrun⟩
  obtain ⟨hnone, -⟩ := reading_eq_error.mp hrun
  obtain ⟨a, ha, -⟩ := hv s.lookup hs
  rw [ha] at hnone
  cases hnone

/-- A setup run of `m` and a proving run of `m'` go through the same states up to values, and
in the end `Q` holds of the number of variables and of the two results. Only setup runs that
succeed bind the proving run, which may still end in one of the faults that `raises` admits or,
where constraints are checked, find a constraint violated. -/
structure Parallel (raises : Run n σ → Fault → Prop) (evaluates : Bool) (k : Nat)
    (m m' : Builder n σ α) (Q : Nat → α → α → Prop) : Prop where
  ok : ∀ {s a s'}, s.SettingUp → k ≤ s.nextVar → m s = .ok a s' →
    s'.SettingUp ∧ s.nextVar ≤ s'.nextVar ∧ s'.author = s.author ∧ ∃ a', Q s'.nextVar a a'
  error : ∀ {s fault s'}, s.SettingUp → k ≤ s.nextVar → m s = .error fault s' →
    s'.author = s.author
  prove : ∀ {s t a s'}, s.Lockstep evaluates t → k ≤ s.nextVar → m s = .ok a s' →
    (∃ a' t', m' t = .ok a' t' ∧ s'.Lockstep evaluates t' ∧ Q s'.nextVar a a') ∨
      ∃ fault t', m' t = .error fault t' ∧
        (raises t fault ∨ evaluates = true ∧ fault.isViolation = true)

namespace Parallel

variable {raises : Run n σ → Fault → Prop} {evaluates : Bool} {k : Nat} {m m' : Builder n σ α}
  {f f' : α → Builder n σ β} {P : Nat → α → α → Prop} {Q : Nat → β → β → Prop}

theorem mono {P' : Nat → α → α → Prop} (hm : Parallel raises evaluates k m m' P)
    (h : ∀ j ≥ k, ∀ a a', P j a a' → P' j a a') : Parallel raises evaluates k m m' P' where
  ok hs hk hrun := by
    obtain ⟨hs', hle, hauthor, a', hP⟩ := hm.ok hs hk hrun
    exact ⟨hs', hle, hauthor, a', h _ (Nat.le_trans hk hle) _ _ hP⟩
  error := hm.error
  prove hst hk hrun := by
    obtain ⟨-, hle, -⟩ := hm.ok hst.settingUp hk hrun
    refine (hm.prove hst hk hrun).imp_left ?_
    rintro ⟨a', t', hrun', hst', hP⟩
    exact ⟨a', t', hrun', hst', h _ (Nat.le_trans hk hle) _ _ hP⟩

theorem weaken {raises' : Run n σ → Fault → Prop} (hm : Parallel raises evaluates k m m' P)
    (h : ∀ t fault, t.eager = false → t.Supplied k → raises t fault → raises' t fault) :
    Parallel raises' evaluates k m m' P where
  ok := hm.ok
  error := hm.error
  prove hst hk hrun := by
    refine (hm.prove hst hk hrun).imp_right ?_
    rintro ⟨fault, t', hrun', hfault⟩
    exact ⟨fault, t', hrun', hfault.imp_left (h _ fault hst.lazy (hst.supplied hk))⟩

theorem pure {a a' : α} (h : ∀ j ≥ k, P j a a') :
    Parallel raises evaluates k (pure a) (pure a' : Builder n σ α) P where
  ok hs hk hrun := by
    cases hrun
    exact ⟨hs, Nat.le_refl _, rfl, a', h _ hk⟩
  error := by rintro _ _ _ _ _ ⟨⟩
  prove hst hk hrun := by
    cases hrun
    exact .inl ⟨a', _, rfl, hst, h _ hk⟩

theorem throw (fault : Fault) :
    Parallel raises evaluates k (throw fault) (throw fault : Builder n σ α) P where
  ok := by rintro _ _ _ _ _ ⟨⟩
  error := by
    rintro _ _ _ _ _ ⟨⟩
    rfl
  prove := by rintro _ _ _ _ _ _ ⟨⟩

theorem bind {raises' : α → Run n σ → Fault → Prop} (hm : Parallel raises evaluates k m m' P)
    (hf : ∀ j ≥ k, ∀ a a', P j a a' → Parallel (raises' a') evaluates j (f a) (f' a') Q) :
    Parallel (fun t fault => raises t fault ∨ ∃ a u, m' t = .ok a u ∧ raises' a u fault)
      evaluates k (m >>= f) (m' >>= f') Q where
  ok hs hk hrun := by
    obtain ⟨a, t, hma, hfb⟩ := bind_eq_ok.mp hrun
    obtain ⟨ht, hle, hauthor, a', hP⟩ := hm.ok hs hk hma
    obtain ⟨hu, hle', hauthor', hQ⟩ :=
      (hf _ (Nat.le_trans hk hle) a a' hP).ok ht (Nat.le_refl _) hfb
    exact ⟨hu, Nat.le_trans hle hle', hauthor'.trans hauthor, hQ⟩
  error hs hk hrun := by
    rcases bind_eq_error.mp hrun with hma | ⟨a, t, hma, hfb⟩
    · exact hm.error hs hk hma
    · obtain ⟨ht, hle, hauthor, a', hP⟩ := hm.ok hs hk hma
      exact ((hf _ (Nat.le_trans hk hle) a a' hP).error ht (Nat.le_refl _) hfb).trans hauthor
  prove hst hk hrun := by
    obtain ⟨a, s', hma, hfb⟩ := bind_eq_ok.mp hrun
    obtain ⟨-, hle, -⟩ := hm.ok hst.settingUp hk hma
    rcases hm.prove hst hk hma with ⟨a', t', hma', hst', hP⟩ | ⟨fault, t', hma', hfault⟩
    · rcases (hf _ (Nat.le_trans hk hle) a a' hP).prove hst' (Nat.le_refl _) hfb with
        ⟨b', u', hfb', hu, hQ⟩ | ⟨fault, u', hfb', hfault⟩
      · exact .inl ⟨b', u', (bind_of_ok hma').trans hfb', hu, hQ⟩
      · refine .inr ⟨fault, u', (bind_of_ok hma').trans hfb', hfault.imp_left fun hraises => ?_⟩
        exact .inr ⟨a', t', hma', hraises⟩
    · exact .inr ⟨fault, t', bind_of_error hma', hfault.imp_left .inl⟩

theorem bind_left (hm : Parallel raises evaluates k m m' P)
    (hf : ∀ j ≥ k, ∀ a a', P j a a' →
      Parallel (fun _ _ => False) evaluates j (f a) (f' a') Q) :
    Parallel raises evaluates k (m >>= f) (m' >>= f') Q := by
  refine (hm.bind hf).weaken fun t fault _ _ h => ?_
  rcases h with hraises | ⟨_, _, -, ⟨⟩⟩
  exact hraises

theorem congr {m₁ m₁' : Builder n σ α} (h : Parallel raises evaluates k m₁ m₁' P)
    (hm : ∀ s, s.SettingUp → m s = m₁ s) (hm' : ∀ s, s.eager = false → m' s = m₁' s) :
    Parallel raises evaluates k m m' P where
  ok hs hk hrun := h.ok hs hk (hm _ hs ▸ hrun)
  error hs hk hrun := h.error hs hk (hm _ hs ▸ hrun)
  prove hst hk hrun := by
    rw [hm' _ hst.lazy]
    exact h.prove hst hk (hm _ hst.settingUp ▸ hrun)

theorem orAbort_ofExprs? {T V : Type} [CircuitType n T V] [CircuitType.Lawful n T]
    {exprs : List (Expr n)} {a a' : CircuitType.Aux n T}
    (hlength : exprs.length = CircuitType.size n T) (hbelow : ∀ x ∈ exprs, x.Below k) :
    Parallel raises evaluates k (orAbort (CircuitType.ofExprs? exprs a))
      (orAbort (CircuitType.ofExprs? exprs a') : Builder n σ T) (Alike (n := n)) := by
  obtain ⟨x, hx, hexprs, -⟩ := CircuitType.Lawful.exists_ofExprs? (T := T) exprs a hlength
  obtain ⟨x', hx', hexprs', -⟩ := CircuitType.Lawful.exists_ofExprs? (T := T) exprs a' hlength
  rw [hx, hx']
  refine pure fun j hj => ⟨fun e he => ?_, hexprs.trans hexprs'.symm⟩
  exact (hbelow e (hexprs ▸ he)).mono hj

theorem constrain [Modulus n] {cs : List (Constraint n)} (hcs : ∀ c ∈ cs, c.Below k) :
    Parallel raises evaluates k (constrain cs) (constrain cs : Builder n σ Unit)
      fun _ _ _ => True where
  ok {s u s'} hs hk hrun := by
    obtain ⟨-, hs'⟩ := constrain_eq_ok.mp hrun
    rw [hs.lazy, if_neg Bool.false_ne_true] at hs'
    rw [hs']
    exact ⟨⟨hs.toRecording.record cs, hs.valueless⟩, Nat.le_refl _, rfl, u, trivial⟩
  error hs _ hrun := by
    obtain ⟨-, -, hs'⟩ := constrain_eq_error.mp hrun
    rw [hs']
  prove {s t u s'} hst hk hrun := by
    obtain ⟨-, hs'⟩ := constrain_eq_ok.mp hrun
    rw [hst.settingUp.lazy, if_neg Bool.false_ne_true] at hs'
    subst hs'
    cases hrun' : Builder.constrain cs t with
    | ok v t' =>
        obtain ⟨-, ht'⟩ := constrain_eq_ok.mp hrun'
        rw [hst.lazy, if_neg Bool.false_ne_true] at ht'
        subst ht'
        exact .inl ⟨v, _, rfl, hst.record cs, trivial⟩
    | error fault t' =>
        obtain ⟨hchecks, hfirst, -⟩ := constrain_eq_error.mp hrun'
        obtain ⟨c, hc, hfault⟩ := hfirst.exists_mem
        refine .inr ⟨fault, t', rfl, .inr ⟨?_, ?_⟩⟩
        · rwa [Run.checks, hst.lazy, Bool.or_false, hst.evaluates, hst.complete.hasValues,
            Bool.true_and] at hchecks
        · exact ((hcs c hc).readable (hst.supplied hk).lookup).decides fault hfault

theorem declareWith {size : Nat} {values values' : Builder n σ (List (Residue n) × α)}
    (hvalues : AuthorOnly false values') :
    Parallel (Raises (declareWith size values')) evaluates k (declareWith size values)
      (declareWith size values') fun j r r' => r.1 = r'.1 ∧ r.1.length = size ∧
        ∀ x ∈ r.1, x.Below j where
  ok {s r s'} hs _ hrun := by
    rw [declareWith_of_setup hs.valueless hs.lazy] at hrun
    cases hrun
    refine ⟨⟨⟨hs.lazy, hs.system⟩, hs.valueless⟩, Nat.le_add_right _ _, rfl, _, rfl, ?_, ?_⟩
    · rw [List.length_map, List.length_range]
    · exact fun x => Expr.below_of_mem_vars
  error hs _ hrun := by
    rw [declareWith_of_setup hs.valueless hs.lazy] at hrun
    cases hrun
  prove {s t r s'} hst hk hrun := by
    rw [declareWith_of_setup hst.settingUp.valueless hst.settingUp.lazy] at hrun
    cases hrun
    cases hrun' : Builder.declareWith size values' t with
    | error fault t' => exact .inr ⟨fault, t', rfl, .inl ⟨t', hrun'⟩⟩
    | ok r' t' =>
        rw [declareWith_of_values (.inl hst.complete.hasValues)] at hrun'
        obtain ⟨⟨vs, extra⟩, u, hvs, hrest⟩ := bind_eq_ok.mp hrun'
        obtain ⟨author, rfl⟩ := hvalues hst.lazy hvs
        split at hrest
        · cases hrest
        · next heq =>
            rw [Decidable.not_not] at heq
            subst heq
            have hlazy : ({ t with author } : Run n σ).eager = false := hst.lazy
            rw [get_bind_apply, hlazy, if_neg Bool.false_ne_true] at hrest
            cases hrest
            refine .inl ⟨_, _, rfl, hst.store author vs, ?_, ?_, fun x => Expr.below_of_mem_vars⟩
            · rw [hst.nextVar]
            · rw [List.length_map, List.length_range]

theorem declare {size : Nat} {values values' : Builder n σ (List (Residue n))}
    (hvalues : AuthorOnly false values') :
    Parallel (Raises (declare size values')) evaluates k (declare size values)
      (declare size values') fun j xs xs' => xs = xs' ∧ xs.length = size ∧
        ∀ x ∈ xs, x.Below j := by
  have hextra : AuthorOnly false (values' >>= fun vs => Pure.pure (vs, ())) := hvalues.map _
  rw [declare_eq, declare_eq]
  refine bind_left ((declareWith hextra).weaken fun t fault _ _ => ?_) fun j hj r r' hr => ?_
  · rintro ⟨u, hrun⟩
    exact ⟨u, bind_of_error hrun⟩
  · exact pure fun i hi => ⟨hr.1, hr.2.1, fun x hx => (hr.2.2 x hx).mono hi⟩

theorem introduce {T V : Type} [CircuitType n T V] [CircuitType.Lawful n T] {checked : Bool}
    {value value' : Builder n σ V} (hvalue : AuthorOnly true value')
    (hcheck : checked = true → ∀ j ≥ k, ∀ x x' : T, Alike (n := n) j x x' →
      Parallel (fun _ _ => False) evaluates j (CircuitType.check (n := n) x : Builder n σ Unit)
        (CircuitType.check (n := n) x') fun _ _ _ => True) :
    Parallel (fun t fault => Raises value' t.inner fault) evaluates k
      (introduce checked value : Builder n σ T) (introduce checked value') (Alike (n := n)) := by
  have hdeclare : Parallel (fun t fault => Raises value' t.inner fault) evaluates k
      (Builder.declareWith (CircuitType.size n T) (encoded T (Builder.witnessing value)))
      (Builder.declareWith (CircuitType.size n T) (encoded T (Builder.witnessing value')))
      fun j r r' => r.1 = r'.1 ∧ r.1.length = CircuitType.size n T ∧ ∀ x ∈ r.1, x.Below j := by
    refine (declareWith (hvalue.witnessing.map _)).weaken fun t fault hlazy _ => ?_
    rintro ⟨u, hrun⟩
    rcases (declareWith_eq_error.mp hrun).2 with hvalues | ⟨r, hr, hlength, -⟩
    · exact .of_witnessing hlazy (.of_map ⟨u, hvalues⟩)
    · obtain ⟨v, w, -, hpure⟩ := bind_eq_ok.mp hr
      cases hpure
      exact absurd (CircuitType.Lawful.length_encode v) hlength
  refine congr ?_ (fun _ hs => introduce_of_lazy hs.lazy) fun _ hlazy => introduce_of_lazy hlazy
  apply hdeclare.bind_left
  rintro j hj ⟨exprs, a⟩ ⟨_, a'⟩ ⟨rfl, hlength, hbelow⟩
  refine (orAbort_ofExprs? (T := T) hlength hbelow).bind_left ?_
  intro i hi x x' hx
  have hchecked : Parallel (fun _ _ => False) evaluates i
      (if checked then CircuitType.check (n := n) x else Pure.pure ())
      (if checked then CircuitType.check (n := n) x' else Pure.pure () : Builder n σ Unit)
      fun _ _ _ => True := by
    split
    · next h => exact hcheck h i (Nat.le_trans hj hi) x x' hx
    · exact pure fun _ _ => trivial
  exact hchecked.bind_left fun l hl _ _ _ => pure fun o ho => hx.mono (Nat.le_trans hl ho)

end Parallel

/-- A composed computation does the same in both phases, and no fault is its own. -/
theorem Composed.parallel [Modulus n] {evaluates : Bool} {k : Nat} {m : Builder n σ α}
    {Q : Nat → α → Prop} (h : Composed k m Q) :
    Parallel (fun _ _ => False) evaluates k m m fun j a a' => a = a' ∧ Q j a := by
  induction h with
  | pure h => exact .pure fun j hj => ⟨rfl, h j hj⟩
  | throw fault => exact .throw fault
  | bind hm hf ihm ihf =>
      refine ihm.bind_left ?_
      rintro j hj a _ ⟨rfl, hP⟩
      exact ihf j hj a hP
  | mono hm h ih => exact ih.mono fun j hj a a' => And.imp_right (h j hj a)
  | constrain h => exact (Parallel.constrain h).mono fun _ _ _ _ _ => ⟨rfl, trivial⟩
  | declare hv =>
      refine (Parallel.declare (.reading _)).weaken fun t fault _ ht => ?_
      rintro ⟨u, hrun⟩
      obtain ⟨-, hvalues | ⟨vs, hvs, hlength, -⟩⟩ := declare_eq_error.mp hrun
      · exact not_raises_reading hv ht.lookup fault ⟨u, hvalues⟩
      · obtain ⟨xs, hxs, hsize⟩ := hv t.lookup ht.lookup
        obtain ⟨hread, -⟩ := reading_eq_ok.mp hvs
        rw [hxs] at hread
        cases hread
        exact hlength hsize
  | @introduce k T V _ _ _ checked v hv hcheck ih =>
      have hintroduce : Parallel _ evaluates k (Builder.introduce checked (reading v) : Builder n σ T)
          (Builder.introduce checked (reading v)) _ :=
        .introduce (.reading v) fun hchecked j hj x x' hx => by
          rw [← hx.eq]
          exact (ih hchecked j hj x hx.inScope).mono fun _ _ _ _ _ => trivial
      refine (hintroduce.mono fun j _ x x' hx => ?_).weaken fun t fault _ ht => ?_
      · exact ⟨hx.eq, hx.inScope⟩
      · exact not_raises_reading hv ((Run.lookup_inner t).symm ▸ ht.lookup) fault

end Builder

end PallasCircuits
