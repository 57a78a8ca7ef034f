import PallasCircuits.Proofs.Eager
import PallasCircuits.Proofs.Lockstep

namespace PallasCircuits

variable {n : Nat} {σ α β : Type}

theorem Future.await?_of_isSome {polls : Option Nat} {future : Future σ α}
    (h : (future.await? polls).isSome = true) : future.await? polls = some future.outcome := by
  cases polls with
  | none => rfl
  | some polls =>
      change (future.outcomeWithin? polls).isSome = true at h
      change future.outcomeWithin? polls = some future.outcome
      induction polls generalizing future with
      | zero => cases h
      | succ polls ih =>
          cases future with
          | ready m => rfl
          | pending rest => exact ih h

namespace Builder

/-- A computation on the author's own data that may also look up variables. -/
def consult (m : (Nat → Option (Residue n)) → EStateM Fault σ α) : Builder n σ α :=
  fun s => authored (m s.lookup) s

theorem AuthorOnly.consult {eager : Bool}
    (m : (Nat → Option (Residue n)) → EStateM Fault σ α) : AuthorOnly eager (consult m) := by
  intro s _ a t hrun
  obtain ⟨author, -, rfl⟩ := authored_eq_ok.mp hrun
  exact ⟨author, rfl⟩

section

variable [Modulus n] {T V : Type} [CircuitType n T V] {evaluates : Bool} {k : Nat}

theorem Parallel.select [CircuitType.Lawful n T] {b : BoolVar n} {x y x' y' : T}
    (hb : b.expr.Below k) (hx : Alike (n := n) k x x') (hy : Alike (n := n) k y y') :
    Parallel (fun _ _ => False) evaluates k (b.select x y) (b.select x' y' : Builder n σ T)
      (Alike (n := n)) := by
  have hlength := CircuitType.Lawful.length_toExprs (n := n) (T := T)
  unfold BoolVar.select
  rw [← hx.toExprs_eq, ← hy.toExprs_eq]
  apply (BoolVar.chooseEach_composed hb hx.inScope hy.inScope
    (by rw [hlength, hlength])).parallel.bind_left
  rintro j hj zs _ ⟨rfl, hzs, hbelow⟩
  exact .orAbort_ofExprs? (hzs.trans (hlength x)) hbelow

theorem Parallel.switch [CircuitType.Lawful n T] {mask : List (BoolVar n)} {values values' : List T}
    (hmask : ∀ b ∈ mask, b.expr.Below k)
    (hvalues : List.Forall₂ (Alike (n := n) k) values values') :
    Parallel (fun _ _ => False) evaluates k (BoolVar.switch mask values)
      (BoolVar.switch mask values' : Builder n σ T) (Alike (n := n)) := by
  obtain ⟨hbelow, hexprs⟩ : (∀ x ∈ values, InScope (n := n) k x) ∧
      List.Forall₂ (fun x x' => CircuitType.toExprs (n := n) x = CircuitType.toExprs x')
        values values' :=
    (List.forall₂_and_left _ _).mp (hvalues.imp fun _ _ hx => ⟨hx.inScope, hx.toExprs_eq⟩)
  have hsame : values.map (CircuitType.toExprs (n := n)) = values'.map CircuitType.toExprs := by
    rwa [← List.forall₂_eq_eq_eq, List.forall₂_map_left_iff, List.forall₂_map_right_iff]
  have hlength : values.length = values'.length := hvalues.length_eq
  have hempty : values.isEmpty = values'.isEmpty := by
    simpa using congrArg List.isEmpty hsame
  unfold BoolVar.switch
  rw [← hsame, ← hlength, ← hempty]
  split
  · exact (Parallel.throw (P := fun _ _ _ => False) _).bind_left fun _ _ _ _ => False.elim
  · apply (Expr.assertEqual_composed (y := 1) (BoolVar.below_sum_map hmask)
      trivial).parallel.bind_left
    intro i hi _ _ _
    apply (BoolVar.addSelected_composed ?_ ?_).parallel.bind_left
    · rintro l hl zs _ ⟨rfl, hzs, hbelow⟩
      exact .orAbort_ofExprs? (by rw [hzs, List.length_replicate]) hbelow
    · exact fun x hx => (List.eq_of_mem_replicate hx) ▸ trivial
    · intro row hrow
      obtain ⟨hb, hx⟩ := List.of_mem_zip hrow
      obtain ⟨x, hx, hexprs⟩ := List.mem_map.mp hx
      refine ⟨(hmask _ hb).mono hi, fun e he => ?_⟩
      rw [← hexprs] at he
      exact (hbelow x hx e he).mono hi

theorem Parallel.witness [CircuitType.Composable n T] (value : Builder n σ V)
    {value' : Builder n σ V} (hvalue : AuthorOnly true value') :
    Parallel (fun t fault => Raises value' t.inner fault) evaluates k
      (Builder.witness value : Builder n σ T) (Builder.witness value') (Alike (n := n)) := by
  refine .introduce hvalue fun _ j _ x x' hx => ?_
  rw [← CircuitType.Composable.check_congr hx.toExprs_eq]
  exact (CircuitType.Composable.check_composed hx.inScope).parallel.mono
    fun _ _ _ _ _ => trivial

end

/-- `body` runs the same operations whatever callbacks `c : κ` it is given, and `m` runs these as
well, on operands that only mention the first `k` variables. In the end `Q` holds of the number
of variables, of the result of `body` in a setup run and of that of `m` in a proving run: these
may differ in what the values carry along. The callbacks that a proving run of `m` calls end in
just the faults that `raises` lists for the state from which the run starts. -/
inductive Uniform {n : Nat} [Modulus n] {σ κ : Type} :
    {α : Type} → Nat → (κ → Builder n σ α) → Builder n σ α → (Run n σ → Fault → Prop) →
    (Nat → α → α → Prop) → Prop
  | pure {α : Type} {k : Nat} {a a' : α} {Q : Nat → α → α → Prop} (h : ∀ j ≥ k, Q j a a') :
      Uniform k (fun _ => pure a) (pure a') (fun _ _ => False) Q
  | bind {α β : Type} {k : Nat} {body : κ → Builder n σ α} {m : Builder n σ α}
      {raises : Run n σ → Fault → Prop} {rest : κ → α → Builder n σ β} {f : α → Builder n σ β}
      {raises' : α → Run n σ → Fault → Prop} {P : Nat → α → α → Prop} {Q : Nat → β → β → Prop}
      (hbody : Uniform k body m raises P)
      (hrest : ∀ j ≥ k, ∀ a a', P j a a' →
        Uniform j (fun c => rest c a) (f a') (raises' a') Q) :
      Uniform k (fun c => body c >>= rest c) (m >>= f)
        (fun t fault => raises t fault ∨ ∃ a u, m t = .ok a u ∧ raises' a u fault) Q
  | mono {α : Type} {k : Nat} {body : κ → Builder n σ α} {m : Builder n σ α}
      {raises : Run n σ → Fault → Prop} {P Q : Nat → α → α → Prop}
      (hbody : Uniform k body m raises P) (h : ∀ j ≥ k, ∀ a a', P j a a' → Q j a a') :
      Uniform k body m raises Q
  | operation {α : Type} {k : Nat} {m : Builder n σ α} {Q : Nat → α → Prop}
      (h : Operation k m Q) :
      Uniform k (fun _ => m) m (fun _ _ => False) fun j a a' => a = a' ∧ Q j a
  | select {k : Nat} {T V : Type} [CircuitType n T V] [CircuitType.Lawful n T] {b : BoolVar n}
      {x y x' y' : T} (hb : b.expr.Below k) (hx : Alike (n := n) k x x')
      (hy : Alike (n := n) k y y') :
      Uniform k (fun _ => b.select x y) (b.select x' y' : Builder n σ T) (fun _ _ => False)
        (Alike (n := n))
  | switch {k : Nat} {T V : Type} [CircuitType n T V] [CircuitType.Lawful n T]
      {mask : List (BoolVar n)} {values values' : List T} (hmask : ∀ b ∈ mask, b.expr.Below k)
      (hvalues : List.Forall₂ (Alike (n := n) k) values values') :
      Uniform k (fun _ => BoolVar.switch mask values)
        (BoolVar.switch mask values' : Builder n σ T) (fun _ _ => False) (Alike (n := n))
  | declare {k : Nat} (size : Nat)
      (values : κ → (Nat → Option (Residue n)) → EStateM Fault σ (List (Residue n)))
      (values' : (Nat → Option (Residue n)) → EStateM Fault σ (List (Residue n))) :
      Uniform k (fun c => declare size (consult (values c))) (declare size (consult values'))
        (Raises (declare size (consult values')))
        fun j xs xs' => xs = xs' ∧ xs.length = size ∧ ∀ x ∈ xs, x.Below j
  | compute {k : Nat} {T V : Type} [CircuitType n T V] [CircuitType.Composable n T]
      (value : κ → Reading n V) (value' : Reading n V) :
      Uniform k (fun c => (compute (value c) : Builder n σ T)) (compute value')
        (fun t fault => Raises (reading value' : Builder n σ V) t.inner fault) (Alike (n := n))
  | witness {k : Nat} {T V : Type} [CircuitType n T V] [CircuitType.Composable n T]
      (value : κ → Builder n σ V) (value' : Builder n σ V)
      (hregular : Regular (fun _ => False) value') :
      Uniform k (fun c => (witness (value c) : Builder n σ T)) (witness value')
        (fun t fault => Raises value' t.inner fault) (Alike (n := n))
  | witnessAsync {k : Nat} {T V : Type} [CircuitType n T V] [CircuitType.Composable n T]
      (polls : Option Nat) (value : κ → Future σ V) (value' : Future σ V)
      (hready : (value'.await? polls).isSome = true) :
      Uniform k (fun c => (witnessAsync polls (value c) : Builder n σ (Option T)))
        (witnessAsync polls value')
        (fun t fault => Raises (authored value'.outcome : Builder n σ V) t.inner fault)
        fun j x x' => ∃ y y', x = some y ∧ x' = some y' ∧ Alike (n := n) j y y'

namespace Uniform

variable [Modulus n] {κ : Type} {k : Nat} {body : κ → Builder n σ α} {m : Builder n σ α}
  {raises : Run n σ → Fault → Prop} {Q : Nat → α → α → Prop}

theorem bind_left {rest : κ → α → Builder n σ β} {f : α → Builder n σ β}
    {P : Nat → β → β → Prop} (hbody : Uniform k body m raises Q)
    (hrest : ∀ j ≥ k, ∀ a a', Q j a a' →
      Uniform j (fun c => rest c a) (f a') (fun _ _ => False) P) :
    Uniform k (fun c => body c >>= rest c) (m >>= f) raises P := by
  have hraises : (fun t fault => raises t fault ∨ ∃ a u, m t = .ok a u ∧ False) = raises := by
    funext t fault
    simp
  exact hraises ▸ hbody.bind hrest

/-- A setup run with some callbacks and a proving run with others keep in step. -/
theorem parallel (h : Uniform k body m raises Q) (evaluates : Bool) (c : κ) :
    Parallel raises evaluates k (body c) m Q := by
  induction h with
  | pure h => exact .pure h
  | bind hbody hrest ihbody ihrest => exact .bind ihbody ihrest
  | mono hbody h ih => exact ih.mono h
  | operation h => exact h.composed.parallel
  | select hb hx hy => exact .select hb hx hy
  | switch hmask hvalues => exact .switch hmask hvalues
  | declare size values values' => exact .declare (.consult values')
  | compute value value' => exact .witness (reading (value c)) (.reading value')
  | witness value value' hregular =>
      refine .witness (value c) fun s heager v t hrun => ?_
      exact ((hregular.preserves (Run.closed_of_eager nofun)).ok hrun).1 heager
  | @witnessAsync k T V _ _ polls value value' hready =>
      have hpolls : polls ≠ some 0 := by
        rintro rfl
        cases hready
      have hwitness : Parallel _ evaluates k (Builder.witness (authored (value c).outcome))
          (Builder.witness (authored value'.outcome) : Builder n σ T) _ :=
        .witness _ (.consult fun _ => value'.outcome)
      have hsetup : ∀ s : Run n σ, s.SettingUp →
          (Builder.witnessAsync polls (value c) : Builder n σ (Option T)) s =
            (Builder.witness (authored (value c).outcome) >>= fun x => Pure.pure (some x)) s :=
        fun s hs => by
          rw [witnessAsync_of_setup hs.valueless hs.lazy hpolls (authored (value c).outcome),
            map_eq_pure_bind]
      refine .congr (hwitness.bind_left fun j _ x x' hx => .pure fun i hi =>
        ⟨x, x', rfl, rfl, hx.mono hi⟩) hsetup fun s _ => ?_
      rw [witnessAsync_of_ready (Future.await?_of_isSome hready) s, map_eq_pure_bind]

/-- Setup runs call no callback. -/
theorem setup_eq (h : Uniform k body m raises Q) (c c' : κ) {s : Run n σ} (hs : s.SettingUp)
    (hk : k ≤ s.nextVar) : body c' s = body c s := by
  have hneeded : ∀ {u : Run n σ}, u.SettingUp → ¬(u.hasValues = true ∨ u.eager = true) := by
    intro u hu
    simp [hu.valueless, hu.lazy]
  induction h generalizing s with
  | pure h => rfl
  | @bind α β k body m raises rest f raises' P Q hbody hrest ihbody ihrest =>
      change (body c' >>= rest c') s = (body c >>= rest c) s
      rw [bind_congr_apply (ihbody hs hk)]
      cases hrun : body c s with
      | error fault t => rw [bind_of_error hrun, bind_of_error hrun]
      | ok a t =>
          obtain ⟨ht, hle, -, a', hP⟩ := (hbody.parallel false c).ok hs hk hrun
          rw [bind_of_ok hrun, bind_of_ok hrun]
          exact ihrest _ (Nat.le_trans hk hle) a a' hP ht (Nat.le_refl _)
  | mono hbody h ih => exact ih hs hk
  | operation h => rfl
  | select hb hx hy => rfl
  | switch hmask hvalues => rfl
  | declare size values values' => exact declare_congr fun h => absurd h (hneeded hs)
  | compute value value' => exact introduce_congr fun h => absurd h (hneeded hs)
  | witness value value' hregular => exact introduce_congr fun h => absurd h (hneeded hs)
  | witnessAsync polls value value' hready =>
      exact witnessAsync_congr fun h => absurd h (hneeded hs)

/-- Setup and proving produce the same circuit. Setups call no callback: they do the same with
all of them, and leave the author's data alone. After a setup that succeeds, a run on any public
input and with any callbacks records the same constraints for as many variables and has a result
that the setup's is related to, unless one of the callbacks that this very run has called ends
in a fault. -/
theorem same_circuit {size : Nat} {raises : κ → Run n σ → Fault → Prop}
    (h : ∀ c, Uniform size body (body c) (raises c) Q) (author : σ) :
    (∀ c c', body c' (Run.start size true author) = body c (Run.start size true author)) ∧
      (∀ c a s, body c (Run.start size true author) = .ok a s → s.author = author) ∧
      (∀ c fault s, body c (Run.start size true author) = .error fault s → s.author = author) ∧
      ∀ c a s, body c (Run.start size true author) = .ok a s →
        ∀ (c' : κ) (author' : σ) (input : List (Residue n)), input.length = size →
          ∃ t₀, supply input (Run.start size true author') = .ok () t₀ ∧
            ((∃ fault t, body c' t₀ = .error fault t ∧ raises c' t₀ fault) ∨
              ∃ a' t, body c' t₀ = .ok a' t ∧ Q s.nextVar a a' ∧
                t.system = s.system ∧ t.nextVar = s.nextVar) := by
  have hstart : (Run.start size true author : Run n σ).SettingUp := ⟨⟨rfl, rfl⟩, rfl⟩
  refine ⟨fun c c' => (h c).setup_eq c c' hstart (Nat.le_refl size),
    fun c a s hrun => (((h c).parallel false c).ok hstart (Nat.le_refl size) hrun).2.2.1,
    fun c fault s hrun => ((h c).parallel false c).error hstart (Nat.le_refl size) hrun, ?_⟩
  intro c a s hrun c' author' input hlength
  let t₀ : Run n σ :=
    { Run.start size true author' with hasValues := true, publicValues := input.toArray }
  have hlockstep : (Run.start size true author).Lockstep false t₀ :=
    ⟨hstart, ⟨rfl, hlength, rfl⟩, rfl, rfl, rfl, rfl⟩
  refine ⟨t₀, supply_eq_ok.mpr ⟨hlength, rfl⟩, ?_⟩
  rcases ((h c').parallel false c).prove hlockstep (Nat.le_refl size) hrun with
    ⟨a', t, hprove, ht, hQ⟩ | ⟨fault, t, hprove, hraises | ⟨⟨⟩, -⟩⟩
  · exact .inr ⟨a', t, hprove, hQ, ht.system, ht.nextVar⟩
  · exact .inl ⟨fault, t, hprove, hraises⟩

end Uniform

theorem uniform_provideRoot (root : EStateM Fault σ Fp) :
    Uniform 1 (fun root => provideRoot root (.var 0)) (provideRoot root (.var 0))
      (fun t fault => Raises (authored root : Builder Pasta.p σ Fp) t.inner fault)
      fun j z z' => z = z' ∧ z.Below j := by
  apply Uniform.bind_left (.witness (T := Expr Pasta.p) (n := Pasta.p) (fun root => authored root)
    (authored root) (.authored root))
  intro j hj y y' hy
  obtain rfl := hy.eq
  have hbelow := (inScope_expr j y).mp hy.inScope
  apply Uniform.bind_left (.operation (.square hbelow))
  rintro i hi square _ ⟨rfl, hsquare⟩
  have hx : (.var 0 : Expr Pasta.p).Below i := Nat.lt_of_lt_of_le hj hi
  apply Uniform.bind_left (.operation (.assertEqual hsquare hx))
  exact fun l hl _ _ _ => .pure fun o ho =>
    ⟨rfl, hbelow.mono (Nat.le_trans hi (Nat.le_trans hl ho))⟩

theorem same_circuit_provideRoot :
    ∃ (y : Expr Pasta.p) (s t₀ t : Run Pasta.p Unit),
      provideRoot (throw .abort) (.var 0) (Run.start 1 true ()) = .ok y s ∧
      supply [9] (Run.start 1 true ()) = .ok () t₀ ∧
      provideRoot (pure 3) (.var 0) t₀ = .ok y t ∧ t.system = s.system ∧
      t.nextVar = s.nextVar := by
  have hsetup : satisfiedBy (fun _ => 0)
      (provideRoot (throw .abort) (.var 0) : Builder Pasta.p Unit _)
      (Run.start 1 true ()) = true := by
    decide +kernel
  obtain ⟨y, s, hrun, -⟩ := exists_of_satisfiedBy hsetup
  obtain ⟨-, -, -, hproves⟩ := Uniform.same_circuit (uniform_provideRoot (σ := Unit)) ()
  obtain ⟨t₀, hsupply, hprove⟩ := hproves (throw Fault.abort) y s hrun (pure 3) () [9] rfl
  rcases hprove with ⟨fault, t, -, u, hfault⟩ | ⟨_, t, hprove, ⟨rfl, -⟩, hsystem, hnext⟩
  · obtain ⟨author, hroot, -⟩ := authored_eq_error.mp hfault
    cases hroot
  · exact ⟨y, s, t₀, t, hrun, hsupply, hprove, hsystem, hnext⟩

end Builder

end PallasCircuits
