import PallasCircuits.Witness

namespace PallasCircuits

structure Compiled (n : Nat) where
  publicSize : Nat
  varCount : Nat
  system : System n

variable {n : Nat} {σ α : Type}

namespace Builder

def execute (start : σ → Run n σ) (m : Builder n σ α) : EStateM Fault σ α :=
  fun author =>
    match m (start author) with
    | .ok a s => .ok a s.author
    | .error fault s => .error fault s.author

def publicInput {T V : Type} [CircuitType n T V] : Builder n σ T := do
  if (← get).publicSize = CircuitType.size n T then
    orAbort (CircuitType.ofExprs? (publicVars (n := n) (CircuitType.size n T))
      CircuitType.setupAux)
  else
    throw .abort

def compiled : Builder n σ (Compiled n) := do
  let s ← get
  match s.system with
  | some system => return ⟨system.publicSize, s.nextVar, system⟩
  | none => failSetup (.invariant "compiled without a constraint system")

/-- Fails if this run has recorded other constraints than the setup run. -/
def assertSameShape (circuit : Compiled n) : Builder n σ Unit := do
  match circuit.system.firstDifference (← get).constraints with
  | some index => failRun (.shape index)
  | none => pure ()

def beginProof (publicValues : List (Residue n)) : Builder n σ Unit := do
  modify fun s => { s with evaluates := true }
  supply publicValues

end Builder

open Builder

variable [Modulus n] {Input Output VIn VOut : Type}
  [CircuitType n Input VIn] [CircuitType n Output VOut]

/-- The setup run: no value is computed. -/
def compile (body : Input → Builder n σ Output) : EStateM Fault σ (Compiled n) :=
  execute (Run.start (CircuitType.size n Input) true) do
    let input ← publicInput
    let _ ← body input
    compiled

/-- The proving run on a public input: the values of all variables, those of the public
input first, and the value of the output. -/
def Compiled.prove (circuit : Compiled n) (body : Input → Builder n σ Output)
    (input : VIn) : EStateM Fault σ (List (Residue n) × VOut) :=
  execute (Run.start circuit.publicSize true) do
    beginProof (CircuitType.encode Input input)
    let input ← publicInput
    let output ← body input
    assertSameShape circuit
    let value ← reading (CircuitType.read (n := n) output)
    let witness ← witnessValues
    return (witness, value)

/-- A setup run followed by a proving run, for a body without public inputs. -/
def runAndCheck (body : Builder n σ Output) : EStateM Fault σ VOut := do
  let circuit ← execute (Run.start 0 true) do
    let _ ← body
    compiled
  execute (Run.start 0 true) do
    beginProof []
    let output ← body
    assertSameShape circuit
    reading (CircuitType.read (n := n) output)

end PallasCircuits
