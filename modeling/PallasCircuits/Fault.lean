import PallasCircuits.Gate.Addition
import PallasCircuits.Gate.Scaling

namespace PallasCircuits

/-! What can go wrong while a circuit is set up or run. Field elements are reported by
their canonical representatives. -/

/-- Errors in the circuit itself, which no choice of values can repair. -/
inductive SetupError
  | unequalConstants (x y : Nat)
  | notBelow (x bound : Nat)
  | notAtMost (x bound : Nat)
  | notBoolean (x : Nat)
  | invariant (text : String)
  | bitLength (bits most : Nat)
  | length (obtained expected : Nat)
deriving DecidableEq

/-- Errors that depend on the values of one run. -/
inductive Violation
  | notBoolean (x : Nat)
  | notEqual (x y : Nat)
  | notSquare (x y : Nat)
  | notProduct (x y z : Nat)
  | addition (flaw : AdditionFlaw)
  | scaling (flaw : ScalingFlaw)
  | tooWide (x bits : Nat)
  | publicInputs (obtained expected : Nat)
  | valueCount (obtained declared : Nat)
  | shape (index : Nat)
deriving DecidableEq

/-- A run ends early with an error, or is cut off because the code around it broke a
promise: it read a variable without a value, or passed the wrong number of elements. -/
inductive Fault
  | setup (error : SetupError)
  | violation (error : Violation)
  | abort
deriving DecidableEq

instance : Inhabited Fault := ⟨.abort⟩

def AdditionFlaw.message : AdditionFlaw → String
  | sameX => "same_x wrong"
  | slope => "slope wrong"
  | x => "x3 wrong"
  | y => "y3 wrong"
  | isInfinity => "inf wrong"
  | infinityInverse => "inf_z wrong"

def ScalingFlaw.message : ScalingFlaw → String
  | bitsNotBoolean => "bits are not boolean"
  | bitsDoNotPack => "bits do not pack to the scalar"
  | degenerate => "degenerate intermediate point"
  | result => "wrong result"

def SetupError.message : SetupError → String
  | unequalConstants x y => s!"the two values were not equal: {x} != {y}"
  | notBelow x bound => s!"the two values were not equal: {x} < {bound} != false"
  | notAtMost x bound => s!"the two values were not equal: {x} <= {bound} != false"
  | notBoolean x => s!"the constant {x} is not a boolean"
  | invariant text => s!"gadget invariant does not hold for the configured curves: {text}"
  | bitLength bits most => s!"invalid bit length {bits} (expected at most {most})"
  | length obtained expected => s!"expected {expected} elements, got {obtained}"

def Violation.message : Violation → String
  | notBoolean x => s!"unsatisfied constraint: {x} is not a boolean (0 or 1)"
  | notEqual x y => s!"unsatisfied constraint: {x} is not equal to {y}"
  | notSquare x y => s!"unsatisfied constraint: {x}^2 is not equal to {y}"
  | notProduct x y z => s!"unsatisfied constraint: {x} * {y} is not equal to {z}"
  | addition flaw => s!"unsatisfied elliptic curve addition: {flaw.message}"
  | scaling flaw => s!"unsatisfied variable-base scalar multiplication: {flaw.message}"
  | tooWide x bits => s!"unsatisfied range check: {x} does not fit in {bits} bits"
  | publicInputs obtained expected =>
      s!"the number of public inputs passed ({obtained}) does not match the number of public inputs expected ({expected})"
  | valueCount obtained declared =>
      s!"the witness callback returned {obtained} field elements, but {declared} were declared"
  | shape index =>
      s!"witness generation produced a different constraint system than compilation (first difference at constraint {index})"

def Fault.message? : Fault → Option String
  | setup error => some s!"a compilation error occurred: {error.message}"
  | violation error => some s!"a runtime error occurred: {error.message}"
  | abort => none

def Fault.isViolation : Fault → Bool
  | violation _ => true
  | _ => false

end PallasCircuits
