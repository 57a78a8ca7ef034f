import PallasCircuits.Proofs.Regular

namespace PallasCircuits.Builder

variable {n : Nat} [Modulus n] {σ α : Type}

/-- Computations that also change a run by hand, in the ways that `grants` admits. Computations
that are passed to an operation may do so too, and all of them may enter any context. -/
inductive Nested {n : Nat} [Modulus n] {σ : Type}
    (grants : (α : Type) → Builder n σ α → Prop) : {α : Type} → Builder n σ α → Prop
  | regular {α : Type} {m : Builder n σ α} (hm : Regular (fun _ => True) m) : Nested grants m
  | granted {α : Type} {m : Builder n σ α} (hm : grants α m) : Nested grants m
  | bind {α β : Type} {m : Builder n σ α} {f : α → Builder n σ β} (hm : Nested grants m)
      (hf : ∀ a, Nested grants (f a)) : Nested grants (m >>= f)
  | tryCatch {α : Type} {m : Builder n σ α} {handler : Fault → Builder n σ α}
      (hm : Nested grants m) (hhandler : ∀ fault, Nested grants (handler fault)) :
      Nested grants (tryCatch m handler)
  | within {α : Type} {m : Builder n σ α} (context : Context) (hm : Nested grants m) :
      Nested grants (within context m)
  | declare {values : Builder n σ (List (Residue n))} (size : Nat)
      (hvalues : Nested grants values) : Nested grants (declare size values)
  | introduce {T V : Type} [CircuitType n T V] {value : Builder n σ V} (checked : Bool)
      (hvalue : Nested grants value)
      (hcheck : ∀ x : T, Nested grants (CircuitType.check (n := n) x : Builder n σ Unit)) :
      Nested grants (introduce checked value : Builder n σ T)

theorem Nested.preserves {grants : (α : Type) → Builder n σ α → Prop}
    {R : Run n σ → Run n σ → Prop} (hR : Closed (fun _ => True) R)
    (hgrants : ∀ {α : Type} {m : Builder n σ α}, grants α m → Preserves R m fun _ => True)
    {m : Builder n σ α} (h : Nested grants m) : Preserves R m fun _ => True := by
  induction h with
  | regular hm => exact hm.preserves hR
  | granted hm => exact hgrants hm
  | bind hm hf ihm ihf => exact .bind hR ihm fun a _ => ihf a
  | tryCatch hm hhandler ihm ihhandler => exact .tryCatch hR ihm ihhandler
  | within context hm ih => exact .within hR trivial ih
  | declare size hvalues ih => exact (Preserves.declare hR ih).mono fun _ _ => trivial
  | introduce checked hvalue hcheck ihvalue ihcheck =>
      exact .introduce hR ihvalue fun _ => ihcheck

end PallasCircuits.Builder
