import PallasCircuits.CircuitType

namespace PallasCircuits

/-- A computation that makes its caller wait some number of times. -/
inductive Future (σ α : Type)
  | ready (outcome : EStateM Fault σ α)
  | pending (rest : Future σ α)

namespace Future

variable {σ α : Type}

def outcome : Future σ α → EStateM Fault σ α
  | ready m => m
  | pending rest => rest.outcome

def outcomeWithin? : Nat → Future σ α → Option (EStateM Fault σ α)
  | 0, _ => none
  | _ + 1, ready m => some m
  | polls + 1, pending rest => rest.outcomeWithin? polls

def await? (polls : Option Nat) (future : Future σ α) : Option (EStateM Fault σ α) :=
  match polls with
  | some polls => future.outcomeWithin? polls
  | none => some future.outcome

end Future

namespace Builder

variable {n : Nat} {σ T V : Type} [CircuitType n T V]

def ofValue (value : V) : Builder n σ T :=
  orAbort (CircuitType.ofValue? n T value)

def witnessing {α : Type} (m : Builder n σ α) : Builder n σ α := do
  within { (← get).context with witnessing := true } m

/-- Introduces a value into the circuit: as fresh variables, whose values `value`
provides in proving runs, or as constants in eager contexts. -/
def introduce (checked : Bool) (value : Builder n σ V) : Builder n σ T := do
  if (← get).eager then
    ofValue (← value)
  else
    let (exprs, valueAux?) ← declareWith (CircuitType.size n T) do
      let v ← witnessing value
      return (CircuitType.encode T v, CircuitType.valueAux (n := n) (T := T) v)
    let aux := valueAux?.getD CircuitType.setupAux
    let x ← orAbort (CircuitType.ofExprs? (n := n) exprs aux)
    if checked then
      CircuitType.check (n := n) x
    return x

/-- Introduces a well-formed value. The computation of `value` may itself build and
check circuits: these are evaluated on the spot, and leave no trace. -/
def witness (value : Builder n σ V) : Builder n σ T :=
  introduce true value

def compute (value : Reading n V) : Builder n σ T :=
  introduce true (reading value)

/-- For values that the constraints added next will force to be well-formed. -/
def computeUnchecked (value : Reading n V) : Builder n σ T :=
  introduce false (reading value)

/-- Introduces the value of a future. Without values the future is never polled. A
future that is dropped before it is ready leaves nothing behind, not even variables. -/
def witnessAsync (polls : Option Nat) (value : Future σ V) : Builder n σ (Option T) := do
  let s ← get
  if s.eager then
    match value.await? polls with
    | none => return none
    | some outcome => return some (← ofValue (← authored outcome))
  else if s.hasValues then
    match value.await? polls with
    | none => return none
    | some outcome =>
        let v ← witnessing (authored outcome)
        let fields := CircuitType.encode T v
        if fields.length ≠ CircuitType.size n T then
          failRun (.valueCount fields.length (CircuitType.size n T))
        return some (← finish (← store fields) (CircuitType.valueAux (n := n) (T := T) v))
  else if polls = some 0 then
    return none
  else
    return some (← finish (← allocate (CircuitType.size n T)) CircuitType.setupAux)
where
  finish (exprs : List (Expr n)) (aux : CircuitType.Aux n T) : Builder n σ T := do
    let x ← orAbort (CircuitType.ofExprs? exprs aux)
    CircuitType.check (n := n) x
    return x

end Builder

end PallasCircuits
