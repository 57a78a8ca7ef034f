import PallasCircuits.Proofs.Phases
import PallasCircuits.Proofs.Reached

namespace PallasCircuits

variable {n : Nat} {σ α : Type}

/-! Which errors a proving run ends in. -/

theorem Run.lockstep_proof (publicValues : List (Residue n)) (author author' : σ) :
    (start publicValues.length true author).Lockstep true (proof publicValues author') :=
  ⟨⟨⟨rfl, rfl⟩, rfl⟩, ⟨rfl, rfl, rfl⟩, rfl, rfl, rfl, rfl⟩

namespace Builder

theorem execute_eq_error {start : σ → Run n σ} {m : Builder n σ α} {author author' : σ}
    {fault : Fault} :
    execute start m author = .error fault author' ↔
      ∃ s, m (start author) = .error fault s ∧ s.author = author' := by
  unfold execute
  cases m (start author) with
  | ok a s => simp
  | error fault' s =>
      simp only [EStateM.Result.error.injEq]
      constructor
      · rintro ⟨rfl, rfl⟩
        exact ⟨s, ⟨rfl, rfl⟩, rfl⟩
      · rintro ⟨_, ⟨rfl, rfl⟩, rfl⟩
        exact ⟨rfl, rfl⟩

theorem beginProof_eq_error {publicValues : List (Residue n)} {size : Nat} {author : σ}
    {t : Run n σ} {fault : Fault}
    (h : beginProof publicValues (Run.start size true author) = .error fault t) :
    fault = .violation (.publicInputs publicValues.length size) := by
  unfold beginProof at h
  rcases bind_eq_error.mp h with hmodify | ⟨_, r, hmodify, hsupply⟩
  · cases hmodify
  · cases hmodify
    exact (supply_eq_error.mp hsupply).2.1

theorem compiled_eq_ok {s t : Run n σ} {circuit : Compiled n}
    (h : compiled s = .ok circuit t) :
    s.system = some circuit.system ∧ s.nextVar = circuit.varCount := by
  unfold compiled at h
  rw [get_bind_apply] at h
  cases hsystem : s.system with
  | none =>
      rw [hsystem] at h
      cases h
  | some system =>
      rw [hsystem] at h
      cases h
      exact ⟨rfl, rfl⟩

end Builder

open Builder

variable [Modulus n] {Input Output VIn VOut : Type} [CircuitType n Input VIn]
  [CircuitType n Output VOut]

omit [Modulus n] in
theorem exists_setup_of_compile {body : Input → Builder n σ Output} {author author' : σ}
    {circuit : Compiled n} (h : compile body author = .ok circuit author') :
    ∃ x output s, CircuitType.ofExprs? (publicVars (n := n) (CircuitType.size n Input))
        CircuitType.setupAux = some x ∧
      body x (Run.start (CircuitType.size n Input) true author) = .ok output s ∧
      s.system = some circuit.system ∧ s.nextVar = circuit.varCount := by
  obtain ⟨t, hrun, -⟩ := execute_eq_ok.mp h
  obtain ⟨x, r, hinput, hbuild⟩ := bind_eq_ok.mp hrun
  obtain ⟨-, hx, rfl⟩ := publicInput_eq_ok.mp hinput
  obtain ⟨output, s, hbody, hcompiled⟩ := bind_eq_ok.mp hbuild
  exact ⟨x, output, s, hx, hbody, compiled_eq_ok hcompiled⟩

theorem CircuitType.decode?_of_read {T V : Type} [CircuitType n T V] [CircuitType.Lawful n T]
    {k : Nat} {x : T} (hx : InScope (n := n) k x) {lookup : Nat → Option (Residue n)}
    (hlookup : ∀ i < k, (lookup i).isSome = true)
    (hread : CircuitType.read x lookup = none) :
    ∃ fields : List (Residue n), fields.length = CircuitType.size n T ∧
      CircuitType.decode? (T := T) fields (CircuitType.aux x) = none := by
  have hfields : ∀ xs : List (Expr n), (∀ e ∈ xs, e.Below k) →
      ∃ fields, xs.mapM (fun e => e.eval? lookup) = some fields ∧ fields.length = xs.length := by
    intro xs hxs
    induction xs with
    | nil => exact ⟨[], rfl, rfl⟩
    | cons e es ih =>
        obtain ⟨he, hes⟩ := List.forall_mem_cons.mp hxs
        obtain ⟨a, ha⟩ := Option.isSome_iff_exists.mp (Expr.eval?_isSome he hlookup)
        obtain ⟨fields, hfields, hlength⟩ := ih hes
        exact ⟨a :: fields, by simp [ha, hfields], by simp [hlength]⟩
  obtain ⟨fields, hfields, hlength⟩ := hfields (CircuitType.toExprs x) hx
  refine ⟨fields, hlength.trans (CircuitType.Lawful.length_toExprs x), ?_⟩
  unfold CircuitType.read at hread
  rw [hfields] at hread
  exact hread

theorem Run.Lockstep.abort_of_finish [CircuitType.Lawful n Output] {s t u : Run n σ}
    (hst : s.Lockstep true t) {circuit : Compiled n} (hsystem : s.system = some circuit.system)
    {output : Output} (houtput : InScope (n := n) s.nextVar output) {fault : Fault}
    (hrun : (assertSameShape circuit >>= fun _ =>
      reading (CircuitType.read (n := n) output) >>= fun value =>
      witnessValues >>= fun witness => pure (witness, value)) t = .error fault u) :
    fault = .abort ∧ ∃ fields : List (Residue n), fields.length = CircuitType.size n Output ∧
      CircuitType.decode? (T := Output) fields (CircuitType.aux output) = none := by
  have hshape : assertSameShape circuit t = .ok () t := by
    apply assertSameShape_eq_ok.mpr
    rw [Run.constraints, hst.system, hsystem]
    exact ⟨rfl, rfl⟩
  rw [bind_of_ok hshape] at hrun
  rcases bind_eq_error.mp hrun with hread | ⟨value, t', hread, hwitness⟩
  · obtain ⟨hnone, rfl, -⟩ := reading_eq_error.mp hread
    have hlookup := (hst.supplied (Nat.le_refl s.nextVar)).lookup
    exact ⟨rfl, CircuitType.decode?_of_read houtput hlookup hnone⟩
  · obtain ⟨-, rfl⟩ := reading_eq_ok.mp hread
    rw [bind_of_ok hst.complete.witnessValues_eq] at hwitness
    cases hwitness

/-- Proving runs of a circuit that was set up end in errors of the run only, unless it is a
callback of this very run that fails. They are cut off only when there is no value for the field
elements that the output consists of. -/
theorem Compiled.isViolation_of_prove [CircuitType.Lawful n Input] [CircuitType.Lawful n Output]
    {κ : Type} {raises : κ → Input → Run n σ → Fault → Prop}
    {body : κ → Input → Builder n σ Output}
    (hbody : ∀ c x, CircuitType.ofExprs? (publicVars (n := n) (CircuitType.size n Input))
        CircuitType.setupAux = some x →
      Uniform (CircuitType.size n Input) (fun c => body c x) (body c x) (raises c x)
        fun j _ y => InScope (n := n) j y)
    {c : κ} {author author' : σ} {circuit : Compiled n}
    (hcompile : compile (body c) author = .ok circuit author') (c' : κ) (input : VIn)
    {start final : σ} {fault : Fault}
    (hrun : circuit.prove (body c') input start = .error fault final) :
    fault.isViolation = true ∨
      (∃ x, CircuitType.ofExprs? (publicVars (n := n) (CircuitType.size n Input))
          CircuitType.setupAux = some x ∧
        raises c' x (Run.proof (CircuitType.encode Input input) start) fault) ∨
      fault = .abort ∧ ∃ (output : Output) (fields : List (Residue n)),
        fields.length = CircuitType.size n Output ∧
          CircuitType.decode? (T := Output) fields (CircuitType.aux output) = none := by
  obtain ⟨x, output, s, hx, hsetup, hsystem, -⟩ := exists_setup_of_compile hcompile
  obtain ⟨u, hproof, -⟩ := execute_eq_error.mp hrun
  rcases bind_eq_error.mp hproof with hbegin | ⟨_, r, hbegin, hsupplied⟩
  · rw [beginProof_eq_error hbegin]
    exact .inl rfl
  obtain rfl := beginProof_eq_ok hbegin
  have hlength : (CircuitType.encode (n := n) Input input).length = CircuitType.size n Input :=
    CircuitType.Lawful.length_encode input
  have hinput : (publicInput : Builder n σ Input)
      (Run.proof (CircuitType.encode Input input) start) =
        .ok x (Run.proof (CircuitType.encode Input input) start) :=
    publicInput_eq_ok.mpr ⟨hlength, hx, rfl⟩
  rw [bind_of_ok hinput] at hsupplied
  have hlockstep : (Run.start (CircuitType.size n Input) true author).Lockstep true
      (Run.proof (CircuitType.encode Input input) start) :=
    hlength ▸ Run.lockstep_proof (CircuitType.encode Input input) author start
  rcases ((hbody c' x hx).parallel true c).prove hlockstep (Nat.le_refl _) hsetup with
    ⟨y, t, hprove, hst, houtput⟩ | ⟨fault', t, hprove, hfault⟩
  · rw [bind_of_ok hprove] at hsupplied
    obtain ⟨rfl, fields, hfields⟩ := hst.abort_of_finish hsystem houtput hsupplied
    exact .inr (.inr ⟨rfl, y, fields, hfields⟩)
  · rw [bind_of_error hprove] at hsupplied
    cases hsupplied
    cases hfault with
    | inl hraises => exact .inr (.inl ⟨x, hx, hraises⟩)
    | inr hviolated => exact .inl hviolated.2

theorem Compiled.isViolation_of_prove_provideRoot :
    ∃ (circuit : Compiled Pasta.p) (fault : Fault),
      compile (provideRoot get) (4 : Fp) = .ok circuit 4 ∧
      (circuit.prove (provideRoot get) (9 : Fp) 4 : EStateM.Result Fault Fp (List Fp × Fp)) =
        .error fault 4 ∧
      fault = .violation (.notEqual 16 9) ∧ fault.isViolation = true := by
  let circuit : Compiled Pasta.p :=
    ⟨1, 3, ⟨1, #[.square (.var 1) (.var 2), .equal (.var 2) (.var 0)]⟩⟩
  have hcompile : compile (provideRoot get) (4 : Fp) = .ok circuit 4 := rfl
  have hrun : circuit.prove (provideRoot get) (9 : Fp) (4 : Fp) =
      (.error (.violation (.notEqual 16 9)) 4 : EStateM.Result Fault Fp (List Fp × Fp)) := by
    decide +kernel
  have hbody : ∀ (root : EStateM Fault Fp Fp) (x : Expr Pasta.p),
      CircuitType.ofExprs? (publicVars (n := Pasta.p) (CircuitType.size Pasta.p (Expr Pasta.p)))
        (CircuitType.setupAux (T := Expr Pasta.p)) = some x →
      Uniform (CircuitType.size Pasta.p (Expr Pasta.p)) (fun root => provideRoot root x)
        (provideRoot root x) (fun t fault => Raises (authored root : Builder Pasta.p Fp Fp)
          t.inner fault)
        fun j _ y => InScope (n := Pasta.p) j y := by
    intro root x hx
    cases hx
    exact (uniform_provideRoot root).mono fun j _ y _ hy => (inScope_expr j _).mpr (hy.1 ▸ hy.2)
  refine ⟨circuit, _, hcompile, hrun, rfl, ?_⟩
  rcases Compiled.isViolation_of_prove hbody hcompile get (9 : Fp) hrun with
    hviolation | ⟨x, -, u, hraises⟩ | ⟨habort, -⟩
  · exact hviolation
  · obtain ⟨author, hroot, -⟩ := authored_eq_error.mp hraises
    cases hroot
  · cases habort

/-- A callback that introduces its value once more, and asserts that it is one. -/
def checkOne (v : Fp) : Builder Pasta.p σ Fp := do
  let x : Expr Pasta.p ← Builder.witness (pure v)
  x.assertEqual (.const 1)
  return v

def witnessOne (v : Fp) : Builder Pasta.p σ (Expr Pasta.p) :=
  Builder.witness (checkOne v)

theorem uniform_witnessOne (v : Fp) :
    Uniform 0 (fun v => (witnessOne v : Builder Pasta.p σ (Expr Pasta.p))) (witnessOne v)
      (fun t fault => Raises (checkOne v) t.inner fault)
      fun j _ y => InScope (n := Pasta.p) j y := by
  refine (Uniform.witness checkOne (checkOne v) ?_).mono fun j _ y y' hy => ?_
  · apply Regular.bind (.introduce true (.pure v) fun _ => .pure ())
    intro x
    obtain ⟨k, hk⟩ := Expr.exists_below [x, .const 1]
    obtain ⟨hx, hone⟩ := List.forall_mem_cons.mp hk
    exact .bind (.operation (.assertEqual hx (hone _ List.mem_cons_self))) fun _ => .pure v
  · exact hy.right

/-- What fails inside of a callback is an error of the circuit, even where it depends on the
values of the run. -/
theorem setup_of_prove_witnessOne :
    ∃ circuit : Compiled Pasta.p,
      (∀ v, Uniform 0 (fun v => (witnessOne v : Builder Pasta.p Unit (Expr Pasta.p)))
        (witnessOne v) (fun t fault => Raises (checkOne v) t.inner fault)
        fun j _ y => InScope (n := Pasta.p) j y) ∧
      compile (fun _ : Unit => witnessOne 2) () = .ok circuit () ∧
      circuit.prove (fun _ : Unit => witnessOne 1) () () = .ok ([1], (1 : Fp)) () ∧
      circuit.prove (fun _ : Unit => witnessOne 2) () () =
        (.error (.setup (.unequalConstants 2 1)) () : EStateM.Result _ _ (List Fp × Fp)) ∧
      (Fault.setup (.unequalConstants 2 1)).isViolation = false :=
  ⟨⟨0, 1, ⟨0, #[]⟩⟩, uniform_witnessOne, rfl, by decide +kernel, by decide +kernel, rfl⟩

end PallasCircuits
