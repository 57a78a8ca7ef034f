import PallasCircuits.System

namespace PallasCircuits

/-- Where in the construction of a circuit a run is. Outside of the checked part every
value is a constant and nothing is recorded; while a value is being witnessed, neither. -/
structure Context where
  checked : Bool
  witnessing : Bool
deriving DecidableEq

instance : Inhabited Context := ⟨⟨false, false⟩⟩

/-- The state of one run of a circuit body. Setup runs have no values, proving runs
have them; both record the same constraints. `author` belongs to the author of the
circuit, and is carried along without ever being looked at. -/
structure Run (n : Nat) (σ : Type) where
  system : Option (System n)
  publicValues : Array (Residue n)
  privateValues : Array (Residue n)
  evaluates : Bool
  publicSize : Nat
  nextVar : Nat
  hasValues : Bool
  /-- The innermost context comes first. -/
  contexts : List Context
  author : σ

namespace Run

variable {n : Nat} {σ : Type}

def start (publicSize : Nat) (recording : Bool) (author : σ) : Run n σ where
  system := if recording then some (.empty publicSize) else none
  publicValues := #[]
  privateValues := #[]
  evaluates := false
  publicSize
  nextVar := publicSize
  hasValues := false
  contexts := [⟨true, false⟩]
  author

def direct (author : σ) : Run n σ where
  system := none
  publicValues := #[]
  privateValues := #[]
  evaluates := true
  publicSize := 0
  nextVar := 0
  hasValues := true
  contexts := [⟨false, false⟩]
  author

def context (s : Run n σ) : Context :=
  s.contexts.head?.getD default

def eager (s : Run n σ) : Bool :=
  !s.context.checked || s.context.witnessing

def checks (s : Run n σ) : Bool :=
  s.hasValues && (s.evaluates || s.eager)

def lookup (s : Run n σ) (index : Nat) : Option (Residue n) :=
  if index < s.publicSize then s.publicValues[index]?
  else s.privateValues[index - s.publicSize]?

def constraints (s : Run n σ) : List (Constraint n) :=
  match s.system with
  | some system => system.constraints.toList
  | none => []

def enter (s : Run n σ) (context : Context) : Run n σ :=
  { s with contexts := context :: s.contexts }

def leave (s : Run n σ) (depth : Nat) : Run n σ :=
  { s with contexts := s.contexts.drop (s.contexts.length - depth) }

def record (s : Run n σ) (constraints : List (Constraint n)) : Run n σ :=
  { s with system := s.system.map (·.append constraints) }

def valuesFrom (s : Run n σ) : (count index : Nat) → Option (List (Residue n))
  | 0, _ => some []
  | count + 1, index => do
      let value ← s.lookup index
      let values ← s.valuesFrom count (index + 1)
      return value :: values

def witness? (s : Run n σ) : Option (List (Residue n)) :=
  s.valuesFrom s.nextVar 0

@[simp] theorem context_enter (s : Run n σ) (context : Context) :
    (s.enter context).context = context := rfl

@[simp] theorem leave_enter (s : Run n σ) (context : Context) :
    (s.enter context).leave s.contexts.length = s := by
  simp [enter, leave]

@[simp] theorem context_start (publicSize : Nat) (recording : Bool) (author : σ) :
    (start publicSize recording author : Run n σ).context = ⟨true, false⟩ := rfl

@[simp] theorem eager_start (publicSize : Nat) (recording : Bool) (author : σ) :
    (start publicSize recording author : Run n σ).eager = false := rfl

@[simp] theorem eager_direct (author : σ) :
    (direct author : Run n σ).eager = true := rfl

end Run

end PallasCircuits
