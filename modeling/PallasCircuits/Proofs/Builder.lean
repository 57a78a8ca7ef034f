import PallasCircuits.Witness

namespace PallasCircuits

variable {n : Nat} {σ α β : Type}

instance decidableEqResult {ε : Type} [DecidableEq ε] [DecidableEq σ] [DecidableEq α] :
    DecidableEq (EStateM.Result ε σ α)
  | .ok a s, .ok b t => decidable_of_iff (a = b ∧ s = t) (by simp)
  | .error e s, .error f t => decidable_of_iff (e = f ∧ s = t) (by simp)
  | .ok _ _, .error _ _ => isFalse (by rintro ⟨⟩)
  | .error _ _, .ok _ _ => isFalse (by rintro ⟨⟩)

/-- Where the computation of a value that `s` introduces takes place. -/
def Run.inner (s : Run n σ) : Run n σ :=
  if s.eager then s else s.enter { s.context with witnessing := true }

@[simp] theorem Run.lookup_inner (s : Run n σ) : s.inner.lookup = s.lookup := by
  unfold inner
  split
  · rfl
  · rfl

namespace Builder

/-! How a run of each primitive goes. -/

@[simp] theorem pure_apply (a : α) (s : Run n σ) :
    (pure a : Builder n σ α) s = .ok a s := rfl

@[simp] theorem throw_apply (fault : Fault) (s : Run n σ) :
    (throw fault : Builder n σ α) s = .error fault s := rfl

@[simp] theorem failSetup_apply (error : SetupError) (s : Run n σ) :
    (failSetup error : Builder n σ α) s = .error (.setup error) s := rfl

@[simp] theorem failRun_apply (error : Violation) (s : Run n σ) :
    (failRun error : Builder n σ α) s = .error (.violation error) s := rfl

@[simp] theorem get_bind_apply (f : Run n σ → Builder n σ β) (s : Run n σ) :
    ((get : Builder n σ (Run n σ)) >>= f) s = f s s := rfl

@[simp] theorem modify_apply (f : Run n σ → Run n σ) (s : Run n σ) :
    (modify f : Builder n σ PUnit) s = .ok ⟨⟩ (f s) := rfl

@[simp] theorem pure_bind_apply (a : α) (f : α → Builder n σ β) (s : Run n σ) :
    ((pure a : Builder n σ α) >>= f) s = f a s := rfl

theorem bind_of_ok {m : Builder n σ α} {f : α → Builder n σ β} {s t : Run n σ} {a : α}
    (h : m s = .ok a t) : (m >>= f) s = f a t := by
  change EStateM.bind m f s = _
  unfold EStateM.bind
  rw [h]

theorem bind_of_error {m : Builder n σ α} {f : α → Builder n σ β} {s t : Run n σ}
    {fault : Fault} (h : m s = .error fault t) : (m >>= f) s = .error fault t := by
  change EStateM.bind m f s = _
  unfold EStateM.bind
  rw [h]

theorem bind_congr_apply {m m' : Builder n σ α} {f : α → Builder n σ β} {s : Run n σ}
    (h : m s = m' s) : (m >>= f) s = (m' >>= f) s := by
  change EStateM.bind m f s = EStateM.bind m' f s
  unfold EStateM.bind
  rw [h]

theorem bind_eq_ok {m : Builder n σ α} {f : α → Builder n σ β} {s u : Run n σ} {b : β} :
    (m >>= f) s = .ok b u ↔ ∃ a t, m s = .ok a t ∧ f a t = .ok b u := by
  cases h : m s with
  | ok a t =>
      rw [bind_of_ok h]
      exact ⟨fun hf => ⟨a, t, rfl, hf⟩, by rintro ⟨_, _, ⟨⟩, hf⟩; exact hf⟩
  | error fault t => simp [bind_of_error h]

theorem bind_eq_error {m : Builder n σ α} {f : α → Builder n σ β} {s u : Run n σ}
    {fault : Fault} :
    (m >>= f) s = .error fault u ↔
      m s = .error fault u ∨ ∃ a t, m s = .ok a t ∧ f a t = .error fault u := by
  cases h : m s with
  | ok a t =>
      rw [bind_of_ok h]
      refine ⟨fun hf => .inr ⟨a, t, rfl, hf⟩, ?_⟩
      rintro (⟨⟨⟩⟩ | ⟨_, _, ⟨⟩, hf⟩)
      exact hf
  | error fault t => simp [bind_of_error h]

theorem bind_pure_eq_error {m : Builder n σ α} {f : α → β} {s t : Run n σ} {fault : Fault} :
    (m >>= fun a => pure (f a)) s = .error fault t ↔ m s = .error fault t := by
  rw [bind_eq_error]
  refine or_iff_left ?_
  rintro ⟨a, u, -, ⟨⟩⟩

theorem tryCatch_of_ok {m : Builder n σ α} {handler : Fault → Builder n σ α} {s t : Run n σ}
    {a : α} (h : m s = .ok a t) : tryCatch m handler s = .ok a t := by
  change EStateM.tryCatch m handler s = _
  unfold EStateM.tryCatch
  rw [h]

theorem tryCatch_of_error {m : Builder n σ α} {handler : Fault → Builder n σ α}
    {s t : Run n σ} {fault : Fault} (h : m s = .error fault t) :
    tryCatch m handler s = handler fault t := by
  change EStateM.tryCatch m handler s = _
  unfold EStateM.tryCatch
  rw [h]
  rfl

theorem tryCatch_congr {m m' : Builder n σ α} {handler : Fault → Builder n σ α} {s : Run n σ}
    (h : m s = m' s) : tryCatch m handler s = tryCatch m' handler s := by
  change EStateM.tryCatch m handler s = EStateM.tryCatch m' handler s
  unfold EStateM.tryCatch
  rw [h]

@[simp] theorem orAbort_some (a : α) : (orAbort (some a) : Builder n σ α) = pure a := rfl

@[simp] theorem orAbort_none : (orAbort none : Builder n σ α) = throw .abort := rfl

theorem orAbort_eq_ok {value : Option α} {s t : Run n σ} {a : α} :
    (orAbort value : Builder n σ α) s = .ok a t ↔ value = some a ∧ t = s := by
  cases value with
  | none => simp
  | some b => simp [eq_comm]

theorem reading_eq_ok {m : Reading n α} {s t : Run n σ} {a : α} :
    (reading m : Builder n σ α) s = .ok a t ↔ m s.lookup = some a ∧ t = s := by
  unfold reading
  cases m s.lookup with
  | none => simp
  | some a => simp [eq_comm]

theorem reading_eq_error {m : Reading n α} {s t : Run n σ} {fault : Fault} :
    (reading m : Builder n σ α) s = .error fault t ↔
      m s.lookup = none ∧ fault = .abort ∧ t = s := by
  unfold reading
  cases m s.lookup with
  | none => simp [eq_comm]
  | some a => simp

theorem authored_eq_ok {m : EStateM Fault σ α} {s t : Run n σ} {a : α} :
    authored m s = .ok a t ↔ ∃ author, m s.author = .ok a author ∧ t = { s with author } := by
  unfold authored
  cases m s.author with
  | ok b author =>
      constructor
      · rintro ⟨⟩
        exact ⟨author, rfl, rfl⟩
      · rintro ⟨_, ⟨⟩, rfl⟩
        rfl
  | error fault author => simp

theorem authored_eq_error {m : EStateM Fault σ α} {s t : Run n σ} {fault : Fault} :
    (authored m : Builder n σ α) s = .error fault t ↔
      ∃ author, m s.author = .error fault author ∧ t = { s with author } := by
  unfold authored
  cases m s.author with
  | ok b author => simp
  | error fault' author =>
      constructor
      · rintro ⟨⟩
        exact ⟨author, rfl, rfl⟩
      · rintro ⟨_, ⟨⟩, rfl⟩
        rfl

theorem authored_of_ok {m : EStateM Fault σ α} {s : Run n σ} {a : α} {author : σ}
    (h : m s.author = .ok a author) : authored m s = .ok a { s with author } :=
  authored_eq_ok.mpr ⟨author, h, rfl⟩

theorem authored_of_error {m : EStateM Fault σ α} {s : Run n σ} {fault : Fault} {author : σ}
    (h : m s.author = .error fault author) :
    (authored m : Builder n σ α) s = .error fault { s with author } :=
  authored_eq_error.mpr ⟨author, h, rfl⟩

theorem within_of_ok {context : Context} {m : Builder n σ α} {s t : Run n σ} {a : α}
    (h : m (s.enter context) = .ok a t) :
    within context m s = .ok a (t.leave s.contexts.length) := by
  unfold within
  rw [h]

theorem within_of_error {context : Context} {m : Builder n σ α} {s t : Run n σ}
    {fault : Fault} (h : m (s.enter context) = .error fault t) :
    within context m s = .error fault (t.leave s.contexts.length) := by
  unfold within
  rw [h]

theorem within_eq_ok {context : Context} {m : Builder n σ α} {s t : Run n σ} {a : α} :
    within context m s = .ok a t ↔
      ∃ u, m (s.enter context) = .ok a u ∧ t = u.leave s.contexts.length := by
  cases h : m (s.enter context) with
  | ok b u =>
      rw [within_of_ok h]
      constructor
      · intro hrun
        cases hrun
        exact ⟨u, rfl, rfl⟩
      · rintro ⟨_, ⟨⟩, rfl⟩
        rfl
  | error fault u => simp [within_of_error h]

theorem within_eq_error {context : Context} {m : Builder n σ α} {s t : Run n σ}
    {fault : Fault} :
    within context m s = .error fault t ↔
      ∃ u, m (s.enter context) = .error fault u ∧ t = u.leave s.contexts.length := by
  cases h : m (s.enter context) with
  | ok b u => simp [within_of_ok h]
  | error fault' u =>
      rw [within_of_error h]
      constructor
      · intro hrun
        cases hrun
        exact ⟨u, rfl, rfl⟩
      · rintro ⟨_, ⟨⟩, rfl⟩
        rfl

theorem within_congr {context : Context} {m m' : Builder n σ α} {s : Run n σ}
    (h : m (s.enter context) = m' (s.enter context)) : within context m s = within context m' s := by
  unfold within
  rw [h]

/-! ### Variables -/

theorem declareWith_of_setup {size : Nat} {values : Builder n σ (List (Residue n) × α)}
    {s : Run n σ} (hvalues : s.hasValues = false) (hlazy : s.eager = false) :
    declareWith size values s = (allocate size >>= fun exprs => pure (exprs, none)) s := by
  unfold declareWith
  rw [get_bind_apply, hvalues, hlazy]
  rfl

theorem declareWith_of_values {size : Nat} {values : Builder n σ (List (Residue n) × α)}
    {s : Run n σ} (h : s.hasValues = true ∨ s.eager = true) :
    declareWith size values s =
      (values >>= fun r =>
        if r.1.length ≠ size then failRun (.valueCount r.1.length size)
        else get >>= fun t =>
          (if t.eager then pure (r.1.map .const) else store r.1) >>= fun exprs =>
            pure (exprs, some r.2)) s := by
  have hbranch : (!s.hasValues && !s.eager) = false := by
    rcases h with h | h <;> simp [h]
  unfold declareWith
  rw [get_bind_apply, hbranch, if_neg Bool.false_ne_true]
  refine congrArg (fun f => (values >>= f) s) (funext fun r => ?_)
  dsimp only
  split
  · rfl
  · refine congrArg (get >>= ·) (funext fun t => ?_)
    split
    · rfl
    · rfl

theorem declare_eq (size : Nat) (values : Builder n σ (List (Residue n))) :
    declare size values =
      (declareWith size (values >>= fun vs => pure (vs, ())) >>= fun r => pure r.1) := rfl

theorem declare_of_setup {size : Nat} {values : Builder n σ (List (Residue n))} {s : Run n σ}
    (hvalues : s.hasValues = false) (hlazy : s.eager = false) :
    declare size values s = allocate size s := by
  rw [declare_eq, bind_congr_apply (declareWith_of_setup hvalues hlazy)]
  rfl

theorem declare_of_values {size : Nat} {values : Builder n σ (List (Residue n))} {s : Run n σ}
    (h : s.hasValues = true ∨ s.eager = true) :
    declare size values s =
      (values >>= fun values =>
        if values.length ≠ size then failRun (.valueCount values.length size)
        else get >>= fun t =>
          if t.eager then pure (values.map .const) else store values) s := by
  rw [declare_eq, bind_congr_apply (declareWith_of_values h)]
  simp only [bind_assoc, pure_bind]
  refine congrArg (fun f => (values >>= f) s) (funext fun vs => ?_)
  split
  · rfl
  · simp only [bind_assoc, pure_bind, bind_pure]

theorem fst_declareWith (size : Nat) (values : Builder n σ (List (Residue n) × α)) :
    (declareWith size values >>= fun r => pure r.1) =
      declare size (values >>= fun r => pure r.1) := by
  funext s
  by_cases h : s.hasValues = true ∨ s.eager = true
  · rw [bind_congr_apply (declareWith_of_values h), declare_of_values h]
    simp only [bind_assoc, pure_bind]
    refine congrArg (fun f => (values >>= f) s) (funext fun r => ?_)
    split
    · rfl
    · simp only [bind_assoc, pure_bind, bind_pure]
  · simp only [not_or, Bool.not_eq_true] at h
    rw [bind_congr_apply (declareWith_of_setup h.1 h.2), declare_of_setup h.1 h.2]
    simp only [bind_assoc, pure_bind, bind_pure]

theorem declareWith_eq_error {size : Nat} {values : Builder n σ (List (Residue n) × α)}
    {s t : Run n σ} {fault : Fault} :
    declareWith size values s = .error fault t ↔ (s.hasValues = true ∨ s.eager = true) ∧
      (values s = .error fault t ∨ ∃ r, values s = .ok r t ∧ r.1.length ≠ size ∧
        fault = .violation (.valueCount r.1.length size)) := by
  by_cases hneeded : s.hasValues = true ∨ s.eager = true
  · rw [declareWith_of_values hneeded, bind_eq_error, and_iff_right hneeded]
    refine or_congr_right (exists_congr fun r => ?_)
    constructor
    · rintro ⟨u, hvalues, hrest⟩
      split at hrest
      · next hlength =>
          cases hrest
          exact ⟨hvalues, hlength, rfl⟩
      · rw [get_bind_apply] at hrest
        split at hrest <;> cases hrest
    · rintro ⟨hvalues, hlength, rfl⟩
      exact ⟨t, hvalues, by rw [if_pos hlength, failRun_apply]⟩
  · obtain ⟨hvalues, hlazy⟩ := not_or.mp hneeded
    rw [declareWith_of_setup (Bool.eq_false_iff.mpr hvalues) (Bool.eq_false_iff.mpr hlazy)]
    exact iff_of_false (by rintro ⟨⟩) fun h => hneeded h.1

theorem declareWith_congr {size : Nat} {values values' : Builder n σ (List (Residue n) × α)}
    {s : Run n σ} (h : s.hasValues = true ∨ s.eager = true → values s = values' s) :
    declareWith size values s = declareWith size values' s := by
  by_cases hneeded : s.hasValues = true ∨ s.eager = true
  · rw [declareWith_of_values hneeded, declareWith_of_values hneeded]
    exact bind_congr_apply (h hneeded)
  · simp only [not_or, Bool.not_eq_true] at hneeded
    rw [declareWith_of_setup hneeded.1 hneeded.2, declareWith_of_setup hneeded.1 hneeded.2]

theorem declare_congr {size : Nat} {values values' : Builder n σ (List (Residue n))}
    {s : Run n σ} (h : s.hasValues = true ∨ s.eager = true → values s = values' s) :
    declare size values s = declare size values' s :=
  bind_congr_apply (declareWith_congr fun hneeded => bind_congr_apply (h hneeded))

theorem declare_eq_error {size : Nat} {values : Builder n σ (List (Residue n))} {s t : Run n σ}
    {fault : Fault} :
    declare size values s = .error fault t ↔ (s.hasValues = true ∨ s.eager = true) ∧
      (values s = .error fault t ∨ ∃ vs, values s = .ok vs t ∧ vs.length ≠ size ∧
        fault = .violation (.valueCount vs.length size)) := by
  rw [declare_eq, bind_pure_eq_error, declareWith_eq_error, bind_pure_eq_error]
  refine and_congr_right fun _ => or_congr_right ?_
  constructor
  · rintro ⟨_, hvalues, hlength⟩
    obtain ⟨vs, u, hvs, ⟨⟩⟩ := bind_eq_ok.mp hvalues
    exact ⟨vs, hvs, hlength⟩
  · rintro ⟨vs, hvs, hlength⟩
    exact ⟨(vs, ()), bind_of_ok hvs, hlength⟩

section

variable {T V : Type} [CircuitType n T V]

def encoded (T : Type) {V : Type} [CircuitType n T V] (value : Builder n σ V) :
    Builder n σ (List (Residue n) × CircuitType.Aux n T) :=
  value >>= fun v => pure (CircuitType.encode T v, CircuitType.valueAux v)

theorem introduce_of_lazy {checked : Bool} {value : Builder n σ V} {s : Run n σ}
    (hlazy : s.eager = false) :
    (introduce checked value : Builder n σ T) s =
      (declareWith (CircuitType.size n T) (encoded T (witnessing value)) >>= fun r =>
        orAbort (CircuitType.ofExprs? r.1 (r.2.getD CircuitType.setupAux)) >>= fun x =>
        (if checked then CircuitType.check (n := n) x else pure ()) >>= fun _ =>
        pure x) s := by
  unfold introduce
  rw [get_bind_apply, hlazy, if_neg Bool.false_ne_true]
  cases checked with
  | false => rfl
  | true => rfl

theorem introduce_of_eager {checked : Bool} {value : Builder n σ V} {s : Run n σ}
    (heager : s.eager = true) :
    (introduce checked value : Builder n σ T) s = (value >>= fun v => ofValue v) s := by
  unfold introduce
  rw [get_bind_apply, heager]
  rfl

theorem introduce_congr {checked : Bool} {value value' : Builder n σ V} {s : Run n σ}
    (h : s.hasValues = true ∨ s.eager = true → value s.inner = value' s.inner) :
    (introduce checked value : Builder n σ T) s = introduce checked value' s := by
  cases heager : s.eager with
  | true =>
      rw [Run.inner, heager, if_pos rfl] at h
      rw [introduce_of_eager heager, introduce_of_eager heager]
      exact bind_congr_apply (h (.inr rfl))
  | false =>
      rw [Run.inner, heager, if_neg Bool.false_ne_true] at h
      rw [introduce_of_lazy heager, introduce_of_lazy heager]
      refine bind_congr_apply (declareWith_congr fun hneeded => bind_congr_apply ?_)
      exact within_congr (h (heager ▸ hneeded))

theorem witnessing_authored_of_ok {m : EStateM Fault σ α} {s : Run n σ} {a : α} {author : σ}
    (h : m s.author = .ok a author) :
    witnessing (authored m) s = .ok a { s with author } := by
  have henter : authored m (s.enter { s.context with witnessing := true }) =
      .ok a ({ s with author }.enter { s.context with witnessing := true }) := authored_of_ok h
  exact (within_of_ok henter).trans
    (congrArg _ (Run.leave_enter { s with author } { s.context with witnessing := true }))

theorem witnessing_authored_of_error {m : EStateM Fault σ α} {s : Run n σ} {fault : Fault}
    {author : σ} (h : m s.author = .error fault author) :
    (witnessing (authored m) : Builder n σ α) s = .error fault { s with author } := by
  have henter : (authored m : Builder n σ α) (s.enter { s.context with witnessing := true }) =
      .error fault ({ s with author }.enter { s.context with witnessing := true }) :=
    authored_of_error h
  exact (within_of_error henter).trans
    (congrArg _ (Run.leave_enter { s with author } { s.context with witnessing := true }))

theorem witnessAsync_of_setup {polls : Option Nat} {future : Future σ V} {s : Run n σ}
    (hvalues : s.hasValues = false) (hlazy : s.eager = false) (hpolls : polls ≠ some 0)
    (value : Builder n σ V) :
    (witnessAsync polls future : Builder n σ (Option T)) s =
      (some <$> witness value : Builder n σ (Option T)) s := by
  have hwitness : (witness value : Builder n σ T) s =
      (allocate (CircuitType.size n T) >>= fun exprs =>
        witnessAsync.finish exprs CircuitType.setupAux) s := by
    unfold witness
    rw [introduce_of_lazy hlazy, bind_congr_apply (declareWith_of_setup hvalues hlazy), bind_assoc]
    rfl
  rw [map_eq_pure_bind, bind_congr_apply hwitness, bind_assoc]
  unfold witnessAsync
  rw [get_bind_apply, hlazy, if_neg Bool.false_ne_true, hvalues, if_neg Bool.false_ne_true,
    if_neg hpolls]

theorem witnessAsync_of_pending {polls : Option Nat} {future : Future σ V} {s : Run n σ}
    (hpending : future.await? polls = none)
    (hneeded : s.eager = true ∨ s.hasValues = true ∨ polls = some 0) :
    (witnessAsync polls future : Builder n σ (Option T)) s = .ok none s := by
  unfold witnessAsync
  rw [get_bind_apply, hpending]
  split
  · rfl
  · split
    · rfl
    · next heager hvalues => rw [if_pos ((hneeded.resolve_left heager).resolve_left hvalues)]; rfl

theorem witnessAsync_of_values {polls : Option Nat} {future : Future σ V}
    {outcome : EStateM Fault σ V} {s : Run n σ} (hvalues : s.hasValues = true)
    (hlazy : s.eager = false) (hready : future.await? polls = some outcome) :
    (witnessAsync polls future : Builder n σ (Option T)) s =
      (witnessing (authored outcome) >>= fun v =>
        if (CircuitType.encode (n := n) T v).length ≠ CircuitType.size n T then
          failRun (.valueCount (CircuitType.encode (n := n) T v).length (CircuitType.size n T))
        else
          store (CircuitType.encode T v) >>= fun exprs =>
          witnessAsync.finish exprs (CircuitType.valueAux v) >>= fun x => pure (some x)) s := by
  unfold witnessAsync
  rw [get_bind_apply, hlazy, if_neg Bool.false_ne_true, hvalues, if_pos rfl, hready]
  refine congrArg (fun f => (witnessing (authored outcome) >>= f) s) (funext fun v => ?_)
  dsimp only
  split
  · rfl
  · rfl

/-- A future that is ready in time is as good as its outcome. -/
theorem witnessAsync_of_ready {polls : Option Nat} {future : Future σ V}
    {outcome : EStateM Fault σ V} (hready : future.await? polls = some outcome) (s : Run n σ) :
    (witnessAsync polls future : Builder n σ (Option T)) s =
      (some <$> witness (authored outcome) : Builder n σ (Option T)) s := by
  cases heager : s.eager with
  | true =>
      have hwitness : (witness (authored outcome) : Builder n σ T) s =
          (authored outcome >>= fun v => ofValue v) s := introduce_of_eager heager
      rw [map_eq_pure_bind, bind_congr_apply hwitness, bind_assoc]
      unfold witnessAsync
      rw [get_bind_apply, heager, if_pos rfl, hready]
  | false =>
      cases hvalues : s.hasValues with
      | false =>
          refine witnessAsync_of_setup hvalues heager ?_ _
          rintro rfl
          cases hready
      | true =>
          have hwitness : (witness (authored outcome) : Builder n σ T) s = _ :=
            introduce_of_lazy heager
          rw [map_eq_pure_bind, bind_congr_apply hwitness,
            bind_congr_apply (bind_congr_apply (declareWith_of_values (.inl hvalues)))]
          rw [witnessAsync_of_values hvalues heager hready]
          simp only [encoded, bind_assoc, pure_bind]
          cases hrun : outcome s.author with
          | error fault author =>
              have hfault := witnessing_authored_of_error (n := n) hrun
              rw [bind_of_error hfault, bind_of_error hfault]
          | ok v author =>
              have hvalue := witnessing_authored_of_ok (n := n) hrun
              rw [bind_of_ok hvalue, bind_of_ok hvalue]
              split
              · rfl
              · have hlazy : ({ s with author } : Run n σ).eager = false := heager
                simp only [bind_assoc]
                rw [get_bind_apply, hlazy, if_neg Bool.false_ne_true]
                simp only [witnessAsync.finish, bind_assoc, if_true, pure_bind, Option.getD_some]

theorem witnessAsync_congr {polls : Option Nat} {future future' : Future σ V} {s : Run n σ}
    (h : s.hasValues = true ∨ s.eager = true →
      (future.await? polls).map (fun outcome => (authored outcome : Builder n σ V) s.inner) =
        (future'.await? polls).map fun outcome => authored outcome s.inner) :
    (witnessAsync polls future : Builder n σ (Option T)) s = witnessAsync polls future' s := by
  by_cases hneeded : s.hasValues = true ∨ s.eager = true
  · have hpending : s.eager = true ∨ s.hasValues = true ∨ polls = some 0 :=
      hneeded.elim (.inr ∘ .inl) .inl
    have hsame := h hneeded
    cases hready : future.await? polls with
    | none =>
        rw [hready, Option.map_none, eq_comm, Option.map_eq_none_iff] at hsame
        rw [witnessAsync_of_pending hready hpending, witnessAsync_of_pending hsame hpending]
    | some outcome =>
        rw [hready, Option.map_some, eq_comm, Option.map_eq_some_iff] at hsame
        obtain ⟨outcome', hready', houtcome⟩ := hsame
        rw [witnessAsync_of_ready hready, witnessAsync_of_ready hready', map_eq_pure_bind,
          map_eq_pure_bind]
        exact bind_congr_apply (introduce_congr fun _ => houtcome.symm)
  · simp only [not_or, Bool.not_eq_true] at hneeded
    by_cases hpolls : polls = some 0
    · subst hpolls
      rw [witnessAsync_of_pending rfl (.inr (.inr rfl)),
        witnessAsync_of_pending rfl (.inr (.inr rfl))]
    · rw [witnessAsync_of_setup hneeded.1 hneeded.2 hpolls (throw .abort),
        witnessAsync_of_setup hneeded.1 hneeded.2 hpolls (throw .abort)]

end

variable [Modulus n]

/-! ### Constraints -/

theorem check_eq_ok {c : Constraint n} {s t : Run n σ} {u : Unit} :
    check c s = .ok u t ↔ c.check s.lookup = .ok () ∧ t = s := by
  unfold check
  cases c.check s.lookup with
  | ok _ => simp [eq_comm]
  | error fault => simp

theorem check_eq_error {c : Constraint n} {s t : Run n σ} {fault : Fault} :
    check c s = .error fault t ↔ c.check s.lookup = .error fault ∧ t = s := by
  unfold check
  cases c.check s.lookup with
  | ok _ => simp
  | error fault => simp [eq_comm]

/-- The first of the constraints that does not pass its check ends in `fault`. -/
def FirstFault (lookup : Nat → Option (Residue n)) (cs : List (Constraint n)) (fault : Fault) :
    Prop :=
  ∃ before c after, cs = before ++ c :: after ∧ (∀ d ∈ before, d.check lookup = .ok ()) ∧
    c.check lookup = .error fault

theorem FirstFault.exists_mem {lookup : Nat → Option (Residue n)} {cs : List (Constraint n)}
    {fault : Fault} (h : FirstFault lookup cs fault) :
    ∃ c ∈ cs, c.check lookup = .error fault := by
  obtain ⟨before, c, after, rfl, -, hc⟩ := h
  exact ⟨c, List.mem_append_right before List.mem_cons_self, hc⟩

theorem firstFault_cons {lookup : Nat → Option (Residue n)} {c : Constraint n}
    {cs : List (Constraint n)} {fault : Fault} :
    FirstFault lookup (c :: cs) fault ↔ c.check lookup = .error fault ∨
      c.check lookup = .ok () ∧ FirstFault lookup cs fault := by
  constructor
  · rintro ⟨before, d, after, hcs, hbefore, hd⟩
    cases before with
    | nil =>
        cases hcs
        exact .inl hd
    | cons e before =>
        cases hcs
        obtain ⟨hc, hbefore⟩ := List.forall_mem_cons.mp hbefore
        exact .inr ⟨hc, before, d, after, rfl, hbefore, hd⟩
  · rintro (hc | ⟨hc, before, d, after, rfl, hbefore, hd⟩)
    · exact ⟨[], c, cs, rfl, List.forall_mem_nil _, hc⟩
    · exact ⟨c :: before, d, after, rfl, List.forall_mem_cons.mpr ⟨hc, hbefore⟩, hd⟩

theorem forM_check_eq_ok {cs : List (Constraint n)} {s t : Run n σ} {u : PUnit} :
    cs.forM check s = .ok u t ↔ (∀ c ∈ cs, c.check s.lookup = .ok ()) ∧ t = s := by
  induction cs with
  | nil => simp [eq_comm]
  | cons c cs ih =>
      change (check c >>= fun _ => cs.forM check) s = _ ↔ _
      simp only [bind_eq_ok, check_eq_ok, List.forall_mem_cons]
      constructor
      · rintro ⟨_, _, ⟨hc, rfl⟩, hcs⟩
        exact ⟨⟨hc, (ih.mp hcs).1⟩, (ih.mp hcs).2⟩
      · rintro ⟨⟨hc, hcs⟩, rfl⟩
        exact ⟨(), t, ⟨hc, rfl⟩, ih.mpr ⟨hcs, rfl⟩⟩

theorem forM_check_eq_error {cs : List (Constraint n)} {s t : Run n σ} {fault : Fault} :
    cs.forM check s = .error fault t ↔ FirstFault s.lookup cs fault ∧ t = s := by
  induction cs with
  | nil =>
      refine iff_of_false (by rintro ⟨⟩) fun h => ?_
      obtain ⟨c, ⟨⟩, -⟩ := h.1.exists_mem
  | cons c cs ih =>
      change (check c >>= fun _ => cs.forM check) s = _ ↔ _
      simp only [bind_eq_error, check_eq_error, check_eq_ok, firstFault_cons]
      constructor
      · rintro (⟨hc, rfl⟩ | ⟨_, _, ⟨hc, rfl⟩, hcs⟩)
        · exact ⟨.inl hc, rfl⟩
        · exact ⟨.inr ⟨hc, (ih.mp hcs).1⟩, (ih.mp hcs).2⟩
      · rintro ⟨hc | ⟨hc, hcs⟩, rfl⟩
        · exact .inl ⟨hc, rfl⟩
        · exact .inr ⟨(), t, ⟨hc, rfl⟩, ih.mpr ⟨hcs, rfl⟩⟩

theorem constrain_apply (cs : List (Constraint n)) (s : Run n σ) :
    constrain cs s =
      ((if s.checks then cs.forM check else pure ()) >>= fun _ =>
        if s.eager then pure () else modify (·.record cs)) s := by
  unfold constrain
  rw [get_bind_apply]
  cases s.checks <;> cases s.eager <;> simp

theorem constrain_eq_ok {cs : List (Constraint n)} {s t : Run n σ} {u : PUnit} :
    constrain cs s = .ok u t ↔
      (s.checks = true → ∀ c ∈ cs, c.check s.lookup = .ok ()) ∧
        t = if s.eager then s else s.record cs := by
  have hrecord : ∀ r : Run n σ,
      (if s.eager then pure () else modify (·.record cs) : Builder n σ PUnit) r = .ok u t ↔
        t = if s.eager then r else r.record cs := by
    intro r
    cases s.eager with
    | false => exact ⟨fun h => by cases h; rfl, fun h => by rw [h]; rfl⟩
    | true => exact ⟨fun h => by cases h; rfl, fun h => by rw [h]; rfl⟩
  rw [constrain_apply, bind_eq_ok]
  simp only [hrecord]
  cases s.checks with
  | false =>
      constructor
      · rintro ⟨_, _, ⟨⟩, ht⟩
        exact ⟨by rintro ⟨⟩, ht⟩
      · rintro ⟨-, ht⟩
        exact ⟨⟨⟩, s, rfl, ht⟩
  | true =>
      constructor
      · rintro ⟨_, _, hcheck, ht⟩
        obtain ⟨hcs, rfl⟩ := forM_check_eq_ok.mp hcheck
        exact ⟨fun _ => hcs, ht⟩
      · rintro ⟨hcs, ht⟩
        exact ⟨⟨⟩, s, forM_check_eq_ok.mpr ⟨hcs rfl, rfl⟩, ht⟩

theorem constrain_eq_error {cs : List (Constraint n)} {s t : Run n σ} {fault : Fault} :
    constrain cs s = .error fault t ↔
      s.checks = true ∧ FirstFault s.lookup cs fault ∧ t = s := by
  have hrecord : ∀ r : Run n σ,
      (if s.eager then pure () else modify (·.record cs) : Builder n σ PUnit) r ≠
        .error fault t := by
    intro r
    split <;> rintro ⟨⟩
  rw [constrain_apply, bind_eq_error]
  simp only [hrecord, and_false, exists_false, or_false]
  cases s.checks with
  | false => exact iff_of_false (by rintro ⟨⟩) (by rintro ⟨⟨⟩, -⟩)
  | true => exact forM_check_eq_error.trans (and_iff_right rfl).symm

end Builder

end PallasCircuits
