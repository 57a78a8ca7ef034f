import PallasCircuits.Proofs.Errors

namespace PallasCircuits

variable {n : Nat} {σ : Type}

/-! The comparison at the end of a proving run is one of constraints. It leaves open how many
variables the setup run has created. -/

open Builder

section

variable [Modulus n] {Input Output VIn VOut : Type} [CircuitType n Input VIn]
  [CircuitType n Output VOut] {circuit : Compiled n} {input : VIn}
  {witness : List (Residue n)} {value : VOut}

variable {κ : Type} {body : κ → Input → Builder n σ Output}

/-- A proving run that succeeds has recorded just the constraints of the setup run, and there is
a value for each of its variables, those of the constraints among them. It has created as many
variables as the setup run if the body does the same in both, but need not otherwise. -/
theorem Compiled.same_constraints_of_prove
    (hbody : ∀ d x, Regular (fun _ => True) (body d x)) {c c' : κ}
    {author author' start final : σ} (hcompile : compile (body c) author = .ok circuit author')
    (hrun : circuit.prove (body c') input start = .ok (witness, value) final) :
    ∃ (x : Input) (output output' : Output) (s t : Run n σ),
      CircuitType.ofExprs? (publicVars (n := n) (CircuitType.size n Input))
        CircuitType.setupAux = some x ∧
      body c x (Run.start (CircuitType.size n Input) true author) = .ok output s ∧
      body c' x (Run.proof (CircuitType.encode Input input) start) = .ok output' t ∧
      circuit.system.constraints.toList = s.constraints ∧ t.constraints = s.constraints ∧
      circuit.varCount = s.nextVar ∧ witness.length = t.nextVar ∧
      (∀ constraint ∈ t.constraints, constraint.Below witness.length) ∧
      ∀ (raises : Run n σ → Fault → Prop) (Q : Nat → Output → Output → Prop),
        Uniform (CircuitType.size n Input) (fun d => body d x) (body c' x) raises Q →
          witness.length = circuit.varCount := by
  obtain ⟨x, output, s, hx, hsetup, hsystem, hcount⟩ := exists_setup_of_compile hcompile
  obtain ⟨y, output', t, hy, hsize, hprove, hshape, -, hwitness⟩ := exists_proof_of_prove hrun
  obtain rfl : x = y := Option.some.inj (hx.symm.trans hy)
  have hsetupList : circuit.system.constraints.toList = s.constraints := by
    rw [Run.constraints, hsystem]
  have ht := ((((hbody c' x).preserves Run.closed_satisfied).ok hprove).1
    (Run.satisfied_proof _ start)).1
  rw [ht.witness?_eq, Option.some_inj] at hwitness
  subst hwitness
  refine ⟨x, output, output', s, t, hx, hsetup, hprove, hsetupList, hshape.symm.trans hsetupList,
    hcount.symm, ht.length_values, fun constraint hmem => ?_, fun raises Q huniform => ?_⟩
  · have hlookup : ∀ i a, t.lookup i = some a → i < t.values.length := by
      intro i a ha
      rw [ht.lookup] at ha
      exact (List.getElem?_eq_some_iff.mp ha).1
    exact Constraint.below_of_check hlookup (ht.holds constraint hmem)
  · have hlockstep : (Run.start (CircuitType.size n Input) true author).Lockstep true
        (Run.proof (CircuitType.encode Input input) start) :=
      hsize ▸ Run.lockstep_proof (CircuitType.encode Input input) author start
    rcases (huniform.parallel true c).prove hlockstep (Nat.le_refl _) hsetup with
      ⟨y, t', hprove', hst, -⟩ | ⟨fault, t', hfault, -⟩
    · rw [hprove] at hprove'
      cases hprove'
      rw [ht.length_values, hst.nextVar, hcount]
    · rw [hprove] at hfault
      cases hfault

end

theorem Compiled.same_constraints_of_prove_provideRoot :
    ∃ circuit : Compiled Pasta.p,
      compile (provideRoot get) (3 : Fp) = .ok circuit 3 ∧
      circuit.prove (provideRoot get) (9 : Fp) (3 : Fp) = .ok ([9, 3, 9], (3 : Fp)) 3 ∧
      (∀ constraint ∈ circuit.system.constraints.toList, constraint.Below 3) ∧
      ([9, 3, 9] : List Fp).length = circuit.varCount := by
  let circuit : Compiled Pasta.p :=
    ⟨1, 3, ⟨1, #[.square (.var 1) (.var 2), .equal (.var 2) (.var 0)]⟩⟩
  have hcompile : compile (provideRoot get) (3 : Fp) = .ok circuit 3 := rfl
  have hrun : circuit.prove (provideRoot get) (9 : Fp) (3 : Fp) =
      .ok ([9, 3, 9], (3 : Fp)) 3 := by
    decide +kernel
  have hbody : ∀ (root : EStateM Fault Fp Fp) (x : Expr Pasta.p),
      Regular (fun _ => True) (provideRoot root x) := regular_provideRoot
  obtain ⟨x, _, _, s, t, hx, -, -, hsetup, hproof, -, -, hbelow, hcount⟩ :=
    Compiled.same_constraints_of_prove hbody hcompile hrun
  cases hx
  refine ⟨circuit, hcompile, hrun, ?_, hcount _ _ (uniform_provideRoot get)⟩
  rw [hsetup, ← hproof]
  exact hbelow

def declareLate : Builder Pasta.p σ Unit := do
  if (← get).hasValues then
    let _ ← declare 1 (pure [1])

theorem regular_declareLate :
    Regular (fun _ => True) (declareLate : Builder Pasta.p σ Unit) := by
  apply Regular.bind .get
  intro s
  split
  · exact .bind (.declare 1 (.pure [1])) fun _ => .pure ()
  · exact .pure ()

/-- No constraint tells that the setup run has created one variable less. -/
theorem Compiled.varCount_ne_declareLate :
    ∃ circuit : Compiled Pasta.p,
      Regular (fun _ => True) (declareLate : Builder Pasta.p Unit Unit) ∧
      compile (fun _ : Unit => declareLate) () = .ok circuit () ∧
      circuit.prove (fun _ : Unit => declareLate) () () = .ok ([1], ()) () ∧
      ([1] : List Fp).length ≠ circuit.varCount :=
  ⟨⟨0, 0, ⟨0, #[]⟩⟩, regular_declareLate, rfl, by decide +kernel, by decide⟩

end PallasCircuits
