import PallasCircuits.Run

namespace PallasCircuits

/-- Computations that build a circuit. A computation that fails leaves the state as it
was when the fault arose. -/
abbrev Builder (n : Nat) (σ : Type) := EStateM Fault (Run n σ)

/-- Computations that only read the values of variables; `none` where one is missing. -/
abbrev Reading (n : Nat) := ReaderT (Nat → Option (Residue n)) Option

variable {n : Nat} {σ α : Type}

def Expr.value [Modulus n] (x : Expr n) : Reading n (Residue n) :=
  fun lookup => x.eval? lookup

namespace Builder

def failSetup (error : SetupError) : Builder n σ α :=
  throw (.setup error)

def failRun (error : Violation) : Builder n σ α :=
  throw (.violation error)

def orAbort : Option α → Builder n σ α
  | some a => pure a
  | none => throw .abort

def reading (m : Reading n α) : Builder n σ α :=
  fun s =>
    match m s.lookup with
    | some a => .ok a s
    | none => .error .abort s

def authored (m : EStateM Fault σ α) : Builder n σ α :=
  fun s =>
    match m s.author with
    | .ok a author => .ok a { s with author }
    | .error fault author => .error fault { s with author }

/-- Runs `m` in a context of its own, which is left again however `m` ends. -/
def within (context : Context) (m : Builder n σ α) : Builder n σ α :=
  fun s =>
    match m (s.enter context) with
    | .ok a t => .ok a (t.leave s.contexts.length)
    | .error fault t => .error fault (t.leave s.contexts.length)

/-! ### Variables -/

def publicVars (count : Nat) : List (Expr n) :=
  (List.range count).map .var

def allocate (count : Nat) : Builder n σ (List (Expr n)) :=
  fun s =>
    .ok ((List.range count).map fun i => .var (s.nextVar + i))
      { s with nextVar := s.nextVar + count }

def store (values : List (Residue n)) : Builder n σ (List (Expr n)) :=
  fun s =>
    .ok ((List.range values.length).map fun i => .var (s.nextVar + i))
      { s with
        nextVar := s.nextVar + values.length
        privateValues := s.privateValues ++ values }

/-- Declares `size` fresh variables. Their values are only computed when values are
needed, and so is what comes along with them; in eager contexts they become constants. -/
def declareWith (size : Nat) (values : Builder n σ (List (Residue n) × α)) :
    Builder n σ (List (Expr n) × Option α) := do
  let s ← get
  if !s.hasValues && !s.eager then
    return (← allocate size, none)
  else
    let (values, extra) ← values
    if values.length ≠ size then
      failRun (.valueCount values.length size)
    if (← get).eager then
      return (values.map .const, some extra)
    else
      return (← store values, some extra)

def declare (size : Nat) (values : Builder n σ (List (Residue n))) :
    Builder n σ (List (Expr n)) := do
  let (exprs, _) ← declareWith size do
    return (← values, ())
  return exprs

/-! ### Constraints -/

variable [Modulus n]

def check (constraint : Constraint n) : Builder n σ Unit :=
  fun s =>
    match constraint.check s.lookup with
    | .ok () => .ok () s
    | .error fault => .error fault s

/-- Adds all of the constraints, or none of them if one that is checked fails. -/
def constrain (constraints : List (Constraint n)) : Builder n σ Unit := do
  let s ← get
  if s.checks then
    constraints.forM check
  if !s.eager then
    modify (·.record constraints)

def assert (constraint : Constraint n) : Builder n σ Unit :=
  constrain [constraint]

/-! ### Proving -/

def supply (publicValues : List (Residue n)) : Builder n σ Unit := do
  let s ← get
  if publicValues.length ≠ s.publicSize then
    failRun (.publicInputs publicValues.length s.publicSize)
  set { s with
    nextVar := s.publicSize
    hasValues := true
    publicValues := publicValues.toArray }

def witnessValues : Builder n σ (List (Residue n)) := do
  orAbort (← get).witness?

end Builder

end PallasCircuits
