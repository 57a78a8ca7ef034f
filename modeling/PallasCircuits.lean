import PallasCircuits.Circuit
import PallasCircuits.Gadget.CurveGroup
import PallasCircuits.Proofs.Phases
import PallasCircuits.Proofs.Scaling
import PallasCircuits.Proofs.Completeness
import PallasCircuits.Proofs.Gadget.Completeness
import PallasCircuits.Proofs.Curve.DoubleAndAdd
import PallasCircuits.Proofs.NativeGates
import PallasCircuits.Proofs.Gadget.PointCompleteness
import PallasCircuits.Proofs.Gadget.CurveGroup
import PallasCircuits.Proofs.HonestScaling
import PallasCircuits.Proofs.GroupLaw
import PallasCircuits.Proofs.Gadget.Limbs
import PallasCircuits.Proofs.Gadget.LimbsCompleteness
import PallasCircuits.Proofs.ConstantScaling
import PallasCircuits.Proofs.Gadget.Scalar
import PallasCircuits.Proofs.Reached
import PallasCircuits.Proofs.ScalarForms
import PallasCircuits.Proofs.Resupply
import PallasCircuits.Proofs.Errors
import PallasCircuits.Proofs.Shape
import PallasCircuits.Proofs.Ranges
import PallasCircuits.Proofs.Differences
import PallasCircuits.Proofs.Comparison
import PallasCircuits.Proofs.Layout
import PallasCircuits.Proofs.WellFormed
import PallasCircuits.Proofs.Introduction
import PallasCircuits.Proofs.Computes
import PallasCircuits.Proofs.Logic
import PallasCircuits.Proofs.Selection
import PallasCircuits.Proofs.Asynchrony
import PallasCircuits.Proofs.Atomicity
import PallasCircuits.Proofs.Linear
import PallasCircuits.Proofs.Divergence
