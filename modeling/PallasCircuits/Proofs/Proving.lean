import PallasCircuits.Circuit
import PallasCircuits.Proofs.Regular
import PallasCircuits.Proofs.Values

namespace PallasCircuits

variable {n : Nat} {σ α : Type}

namespace Run

def proof (publicValues : List (Residue n)) (author : σ) : Run n σ :=
  { start publicValues.length true author with
    evaluates := true
    hasValues := true
    publicValues := publicValues.toArray }

theorem mem_constraints_record {s : Run n σ} {cs : List (Constraint n)} {c : Constraint n}
    (h : c ∈ (s.record cs).constraints) : c ∈ s.constraints ∨ c ∈ cs := by
  unfold constraints record at h
  cases hsystem : s.system with
  | none =>
      rw [hsystem] at h
      cases h
  | some system =>
      simp only [hsystem, Option.map_some, System.toList_constraints_append,
        List.mem_append] at h
      unfold constraints
      rwa [hsystem]

variable [Modulus n]

/-- A proving run in which every constraint is checked, and every constraint recorded so far
has been found to hold. -/
structure Satisfied (s : Run n σ) : Prop extends s.Complete where
  evaluates : s.evaluates = true
  holds : ∀ c ∈ s.constraints, c.check s.lookup = .ok ()

theorem Satisfied.record {s : Run n σ} (hs : s.Satisfied) {cs : List (Constraint n)}
    (h : s.checks = true → ∀ c ∈ cs, c.check s.lookup = .ok ()) : (s.record cs).Satisfied where
  toComplete := ⟨hs.hasValues, hs.publicValues, hs.nextVar⟩
  evaluates := hs.evaluates
  holds c hc := by
    rcases mem_constraints_record hc with hc | hc
    · exact hs.holds c hc
    · exact h (by rw [checks, hs.hasValues, hs.evaluates, Bool.true_or, Bool.and_true]) c hc

theorem Satisfied.store {s : Run n σ} (hs : s.Satisfied) (values : List (Residue n)) :
    ({ s with
      nextVar := s.nextVar + values.length
      privateValues := s.privateValues ++ values } : Run n σ).Satisfied where
  toComplete := hs.toComplete.store values
  evaluates := hs.evaluates
  holds c hc := Constraint.check_of_extends (fun _ _ => lookup_store) (hs.holds c hc)

theorem satisfied_proof (publicValues : List (Residue n)) (author : σ) :
    (proof publicValues author).Satisfied where
  toComplete := ⟨rfl, rfl, rfl⟩
  evaluates := rfl
  holds := by rintro _ ⟨⟩

theorem closed_satisfied : Builder.Closed (fun _ => True) fun s t : Run n σ =>
    s.Satisfied → t.Satisfied ∧ t.publicValues = s.publicValues where
  refl s hs := ⟨hs, rfl⟩
  trans hst htu hs := by
    obtain ⟨ht, hpublic⟩ := hst hs
    obtain ⟨hu, hpublic'⟩ := htu ht
    exact ⟨hu, hpublic'.trans hpublic⟩
  author s author hs := ⟨⟨⟨hs.hasValues, hs.publicValues, hs.nextVar⟩, hs.evaluates, hs.holds⟩, rfl⟩
  within := by
    intro s t context _ h hs
    obtain ⟨ht, hpublic⟩ :=
      h ⟨⟨hs.hasValues, hs.publicValues, hs.nextVar⟩, hs.evaluates, hs.holds⟩
    exact ⟨⟨⟨ht.hasValues, ht.publicValues, ht.nextVar⟩, ht.evaluates, ht.holds⟩, hpublic⟩
  record _ hchecked hs := ⟨hs.record hchecked, rfl⟩
  store values _ hs := ⟨hs.store values, rfl⟩
  allocate := by
    intro s count _ hphase hs
    rw [hs.hasValues] at hphase
    cases hphase

end Run

theorem firstDifference_eq_none_iff {α : Type} [DecidableEq α] {as bs : List α} :
    firstDifference as bs = none ↔ as = bs := by
  induction as generalizing bs with
  | nil =>
      cases bs with
      | nil => simp [firstDifference]
      | cons b bs => simp [firstDifference]
  | cons a as ih =>
      cases bs with
      | nil => simp [firstDifference]
      | cons b bs =>
          unfold firstDifference
          split
          · next hab => rw [Option.map_eq_none_iff, ih, List.cons.injEq, and_iff_right hab]
          · next hab => simp [hab]

namespace Builder

theorem execute_eq_ok {start : σ → Run n σ} {m : Builder n σ α} {author author' : σ} {a : α} :
    execute start m author = .ok a author' ↔
      ∃ s, m (start author) = .ok a s ∧ s.author = author' := by
  unfold execute
  cases m (start author) with
  | ok b s =>
      simp only [EStateM.Result.ok.injEq]
      constructor
      · rintro ⟨rfl, rfl⟩
        exact ⟨s, ⟨rfl, rfl⟩, rfl⟩
      · rintro ⟨_, ⟨rfl, rfl⟩, rfl⟩
        exact ⟨rfl, rfl⟩
  | error fault s => simp

theorem supply_eq_ok {publicValues : List (Residue n)} {s t : Run n σ} {u : PUnit} :
    supply publicValues s = .ok u t ↔ publicValues.length = s.publicSize ∧
      t = { s with
        nextVar := s.publicSize
        hasValues := true
        publicValues := publicValues.toArray } := by
  unfold supply
  rw [get_bind_apply]
  split
  · next hlength => exact iff_of_false (by rintro ⟨⟩) fun h => hlength h.1
  · next hlength =>
      rw [Decidable.not_not] at hlength
      exact ⟨by rintro ⟨⟩; exact ⟨hlength, rfl⟩, by rintro ⟨-, rfl⟩; rfl⟩

theorem supply_eq_error {publicValues : List (Residue n)} {s t : Run n σ} {fault : Fault} :
    supply publicValues s = .error fault t ↔ publicValues.length ≠ s.publicSize ∧
      fault = .violation (.publicInputs publicValues.length s.publicSize) ∧ t = s := by
  unfold supply
  rw [get_bind_apply]
  split
  · next hlength =>
      exact ⟨by rintro ⟨⟩; exact ⟨hlength, rfl, rfl⟩, by rintro ⟨-, rfl, rfl⟩; rfl⟩
  · next hlength => exact iff_of_false (by rintro ⟨⟩) fun h => hlength h.1

theorem beginProof_eq_ok {publicValues : List (Residue n)} {size : Nat} {author : σ}
    {t : Run n σ} {u : Unit}
    (h : beginProof publicValues (Run.start size true author) = .ok u t) :
    t = Run.proof publicValues author := by
  unfold beginProof at h
  obtain ⟨_, r, hmodify, hsupply⟩ := bind_eq_ok.mp h
  cases hmodify
  obtain ⟨hlength, rfl⟩ := supply_eq_ok.mp hsupply
  have hsize : publicValues.length = size := hlength
  subst hsize
  rfl

theorem publicInput_eq_ok {T V : Type} [CircuitType n T V] {s t : Run n σ} {x : T} :
    (publicInput : Builder n σ T) s = .ok x t ↔ s.publicSize = CircuitType.size n T ∧
      CircuitType.ofExprs? (publicVars (n := n) (CircuitType.size n T)) CircuitType.setupAux =
        some x ∧ t = s := by
  unfold publicInput
  rw [get_bind_apply]
  split
  · next hsize => rw [orAbort_eq_ok, and_iff_right hsize]
  · next hsize => exact iff_of_false (by rintro ⟨⟩) fun h => hsize h.1

theorem witnessValues_eq_ok {s t : Run n σ} {witness : List (Residue n)} :
    witnessValues s = .ok witness t ↔ s.witness? = some witness ∧ t = s := by
  unfold witnessValues
  rw [get_bind_apply, orAbort_eq_ok]

theorem assertSameShape_eq_ok {circuit : Compiled n} {s t : Run n σ} {u : Unit} :
    assertSameShape circuit s = .ok u t ↔
      circuit.system.constraints.toList = s.constraints ∧ t = s := by
  unfold assertSameShape System.firstDifference
  rw [get_bind_apply]
  cases hdiff : firstDifference circuit.system.constraints.toList s.constraints with
  | none =>
      have hsame := firstDifference_eq_none_iff.mp hdiff
      exact ⟨by rintro ⟨⟩; exact ⟨hsame, rfl⟩, by rintro ⟨-, rfl⟩; rfl⟩
  | some index =>
      apply iff_of_false (by rintro ⟨⟩)
      intro h
      rw [firstDifference_eq_none_iff.mpr h.1] at hdiff
      cases hdiff

end Builder

/-! ### Proofs -/

section

open Builder

variable [Modulus n] {Input Output VIn VOut : Type} [CircuitType n Input VIn]
  [CircuitType n Output VOut]

theorem Compiled.exists_proof_of_prove {circuit : Compiled n} {body : Input → Builder n σ Output}
    {input : VIn} {author author' : σ} {witness : List (Residue n)} {value : VOut}
    (h : circuit.prove body input author = .ok (witness, value) author') :
    ∃ x output t, CircuitType.ofExprs? (publicVars (n := n) (CircuitType.size n Input))
        CircuitType.setupAux = some x ∧
      (CircuitType.encode (n := n) Input input).length = CircuitType.size n Input ∧
      body x (Run.proof (CircuitType.encode Input input) author) = .ok output t ∧
      circuit.system.constraints.toList = t.constraints ∧
      CircuitType.read output t.lookup = some value ∧ t.witness? = some witness := by
  obtain ⟨u, hproof, -⟩ := execute_eq_ok.mp h
  obtain ⟨_, s, hbegin, hsupplied⟩ := bind_eq_ok.mp hproof
  obtain rfl := beginProof_eq_ok hbegin
  obtain ⟨x, r, hinput, hbuild⟩ := bind_eq_ok.mp hsupplied
  obtain ⟨hsize, hx, rfl⟩ := publicInput_eq_ok.mp hinput
  obtain ⟨output, t, houtput, hcompare⟩ := bind_eq_ok.mp hbuild
  obtain ⟨_, t', hshape, hdecode⟩ := bind_eq_ok.mp hcompare
  obtain ⟨hshape, rfl⟩ := assertSameShape_eq_ok.mp hshape
  obtain ⟨v, t'', hvalue, hreturn⟩ := bind_eq_ok.mp hdecode
  obtain ⟨hvalue, rfl⟩ := reading_eq_ok.mp hvalue
  obtain ⟨values, u, hwitness, hpure⟩ := bind_eq_ok.mp hreturn
  obtain ⟨hwitness, rfl⟩ := witnessValues_eq_ok.mp hwitness
  cases hpure
  exact ⟨x, output, _, hx, hsize, houtput, hshape, hvalue, hwitness⟩

/-- What a proving run returns satisfies the circuit it was run for, whatever its body
does with the values that it sees. The public input comes first, and the value returned is
that of the body's output. -/
theorem Compiled.satisfied_of_prove {circuit : Compiled n} {body : Input → Builder n σ Output}
    (hbody : ∀ x, Regular (fun _ => True) (body x)) {input : VIn} {author author' : σ}
    {witness : List (Residue n)} {value : VOut}
    (hrun : circuit.prove body input author = .ok (witness, value) author') :
    (∀ c ∈ circuit.system.constraints, c.check (fun i => witness[i]?) = .ok ()) ∧
      CircuitType.encode Input input <+: witness ∧
      ∃ (x : Input) (output : Output) (t : Run n σ),
        CircuitType.ofExprs? (publicVars (n := n) (CircuitType.size n Input))
          CircuitType.setupAux = some x ∧
        body x (Run.proof (CircuitType.encode Input input) author) = .ok output t ∧
        CircuitType.read output (fun i => witness[i]?) = some value := by
  obtain ⟨x, output, t, hx, -, houtput, hshape, hvalue, hwitness⟩ := exists_proof_of_prove hrun
  obtain ⟨ht, hpublic⟩ := (((hbody x).preserves Run.closed_satisfied).ok houtput).1
    (Run.satisfied_proof _ author)
  rw [ht.witness?_eq, Option.some_inj] at hwitness
  subst hwitness
  have hlookup : (fun i => t.values[i]?) = t.lookup := funext fun i => (ht.lookup i).symm
  rw [hlookup]
  refine ⟨fun c hc => ht.holds c ?_, ?_, x, output, t, hx, houtput, hvalue⟩
  · rw [← hshape]
    exact Array.mem_toList_iff.mpr hc
  · refine ⟨t.privateValues.toList, ?_⟩
    unfold Run.values
    rw [hpublic]
    rfl

end

/-- A circuit that takes a square root of the public input from its author. -/
def provideRoot (root : EStateM Fault σ Fp) (x : Expr Pasta.p) :
    Builder Pasta.p σ (Expr Pasta.p) := do
  let root : Expr Pasta.p ← Builder.witness (Builder.authored root)
  let square ← root.square
  square.assertEqual x
  return root

theorem regular_provideRoot {enters : Context → Prop} (root : EStateM Fault σ Fp)
    (x : Expr Pasta.p) : Builder.Regular enters (provideRoot root x) := by
  refine .bind (.introduce true (.authored root) fun _ => .pure ()) fun y => ?_
  obtain ⟨j, hy⟩ := Expr.exists_below [y]
  apply Builder.Regular.bind (.operation (.square (hy y List.mem_cons_self)))
  intro square
  obtain ⟨k, hk⟩ := Expr.exists_below [square, x]
  obtain ⟨hsquare, hx⟩ := List.forall_mem_cons.mp hk
  exact .bind (.operation (.assertEqual hsquare (hx x List.mem_cons_self))) fun _ => .pure y

theorem satisfied_of_prove_provideRoot :
    ∃ circuit : Compiled Pasta.p,
      circuit.system.constraints = #[.square (.var 1) (.var 2), .equal (.var 2) (.var 0)] ∧
      circuit.prove (provideRoot get) (9 : Fp) (3 : Fp) = .ok ([9, 3, 9], (3 : Fp)) 3 ∧
      (∀ c ∈ circuit.system.constraints,
        c.check (fun i => ([9, 3, 9] : List Fp)[i]?) = .ok ()) ∧
      ([9] : List Fp) <+: [9, 3, 9] := by
  let circuit : Compiled Pasta.p :=
    ⟨1, 3, ⟨1, #[.square (.var 1) (.var 2), .equal (.var 2) (.var 0)]⟩⟩
  have hrun : circuit.prove (provideRoot get) (9 : Fp) (3 : Fp) =
      .ok ([9, 3, 9], (3 : Fp)) 3 := by
    decide +kernel
  obtain ⟨hchecks, hprefix, -⟩ := Compiled.satisfied_of_prove (regular_provideRoot get) hrun
  exact ⟨circuit, rfl, hrun, hchecks, hprefix⟩

end PallasCircuits
