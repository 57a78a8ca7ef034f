import PallasCircuits.Constraint

namespace PallasCircuits

structure System (n : Nat) where
  publicSize : Nat
  constraints : Array (Constraint n)
deriving DecidableEq

/-- The first position where two lists disagree, a list that has ended included. -/
def firstDifference {α : Type} [DecidableEq α] : List α → List α → Option Nat
  | [], [] => none
  | a :: as, b :: bs => if a = b then (firstDifference as bs).map (· + 1) else some 0
  | _, _ => some 0

namespace System

variable {n : Nat}

def empty (publicSize : Nat) : System n :=
  ⟨publicSize, #[]⟩

def append (system : System n) (constraints : List (Constraint n)) : System n :=
  { system with constraints := system.constraints ++ constraints }

def rows (system : System n) : Nat :=
  system.constraints.toList.foldr (fun constraint total => constraint.rows + total)
    system.publicSize

def summary (system : System n) : List (Constraint.Kind × Nat) :=
  Constraint.Kind.all.map fun kind =>
    (kind, system.constraints.toList.countP fun constraint => constraint.kind = kind)

def firstDifference (system : System n) (constraints : List (Constraint n)) : Option Nat :=
  PallasCircuits.firstDifference system.constraints.toList constraints

@[simp] theorem toList_constraints_append (system : System n)
    (constraints : List (Constraint n)) :
    (system.append constraints).constraints.toList =
      system.constraints.toList ++ constraints := by
  simp [append]

@[simp] theorem publicSize_append (system : System n) (constraints : List (Constraint n)) :
    (system.append constraints).publicSize = system.publicSize := rfl

end System

end PallasCircuits
