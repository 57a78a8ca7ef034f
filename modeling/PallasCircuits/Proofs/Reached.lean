import PallasCircuits.Proofs.Extends
import PallasCircuits.Proofs.Proving

namespace PallasCircuits

open Builder

variable {n : Nat} [Modulus n] {σ α : Type}

/-! The states that a proving run can get into. -/

namespace Builder

theorem Keeps.publicInput {T V : Type} [CircuitType n T V] [CircuitType.Lawful n T]
    {s : Run n σ} (hs : s.Complete) :
    Keeps s (publicInput : Builder n σ T) fun j x => InScope (n := n) j x := by
  by_cases hsize : s.publicSize = CircuitType.size n T
  · have hvars : (publicVars (n := n) (CircuitType.size n T)).length = CircuitType.size n T ∧
        ∀ x ∈ publicVars (n := n) (CircuitType.size n T), x.Below s.nextVar := by
      refine ⟨by rw [publicVars, List.length_map, List.length_range], fun x hx => ?_⟩
      obtain ⟨i, hi, rfl⟩ := List.mem_map.mp hx
      have hi : i < s.publicSize := hsize ▸ List.mem_range.mp hi
      exact Nat.lt_of_lt_of_le hi (hs.nextVar ▸ Nat.le_add_right _ _)
    exact .of_eq (ofExprs hs hvars) (by rw [Builder.publicInput, get_bind_apply, if_pos hsize])
  · exact .of_eq (throw hs .abort) (by rw [Builder.publicInput, get_bind_apply, if_neg hsize])

/-- Computations that use a run from `s` on by the operations of the library only, on operands
that mention existing variables. Computations that are passed to an operation do so as well,
from wherever it runs them. `Q` holds of the number of variables in the end and of the result,
if there is one. -/
inductive Scoped {n : Nat} [Modulus n] {σ : Type} :
    {α : Type} → Run n σ → Builder n σ α → (Nat → α → Prop) → Prop
  | pure {α : Type} {s : Run n σ} {a : α} {Q : Nat → α → Prop} (h : Q s.nextVar a) :
      Scoped s (pure a) Q
  | throw {α : Type} {s : Run n σ} {Q : Nat → α → Prop} (fault : Fault) :
      Scoped s (throw fault) Q
  | bind {α β : Type} {s : Run n σ} {m : Builder n σ α} {f : α → Builder n σ β}
      {P : Nat → α → Prop} {Q : Nat → β → Prop} (hm : Scoped s m P)
      (hf : ∀ a t, m s = .ok a t → s.Extends t → P t.nextVar a → Scoped t (f a) Q) :
      Scoped s (m >>= f) Q
  | mono {α : Type} {s : Run n σ} {m : Builder n σ α} {P Q : Nat → α → Prop}
      (hm : Scoped s m P) (h : ∀ j ≥ s.nextVar, ∀ a, P j a → Q j a) : Scoped s m Q
  | tryCatch {α : Type} {s : Run n σ} {m : Builder n σ α} {handler : Fault → Builder n σ α}
      {Q : Nat → α → Prop} (hm : Scoped s m Q)
      (hhandler : ∀ fault t, m s = .error fault t → s.Extends t →
        Scoped t (handler fault) Q) :
      Scoped s (tryCatch m handler) Q
  | get {s : Run n σ} : Scoped s get fun _ _ => True
  | reading {α : Type} {s : Run n σ} (m : Reading n α) : Scoped s (reading m) fun _ _ => True
  | authored {α : Type} {s : Run n σ} (m : EStateM Fault σ α) :
      Scoped s (authored m) fun _ _ => True
  | within {α : Type} {s : Run n σ} {context : Context} {m : Builder n σ α}
      {Q : Nat → α → Prop} (hm : Scoped (s.enter context) m Q) : Scoped s (within context m) Q
  | operation {α : Type} {s : Run n σ} {m : Builder n σ α} {Q : Nat → α → Prop}
      (h : Operation s.nextVar m Q) : Scoped s m Q
  | publicInput {T V : Type} [CircuitType n T V] [CircuitType.Lawful n T] {s : Run n σ} :
      Scoped s (publicInput : Builder n σ T) fun j x => InScope (n := n) j x
  | store {s : Run n σ} (values : List (Residue n)) :
      Scoped s (store values) fun j xs => xs.length = values.length ∧ ∀ x ∈ xs, x.Below j
  | declare {s : Run n σ} {values : Builder n σ (List (Residue n))} (size : Nat)
      (hvalues : Scoped s values fun _ _ => True) :
      Scoped s (declare size values) fun j xs => xs.length = size ∧ ∀ x ∈ xs, x.Below j
  | introduce {T V : Type} [CircuitType n T V] [CircuitType.Lawful n T] {s : Run n σ}
      {value : Builder n σ V} (checked : Bool) (hvalue : Scoped s.inner value fun _ _ => True)
      (hcheck : checked = true → ∀ t, s.Extends t → ∀ x : T, InScope (n := n) t.nextVar x →
        Scoped t (CircuitType.check (n := n) x : Builder n σ Unit) fun _ _ => True) :
      Scoped s (introduce checked value : Builder n σ T) fun j x => InScope (n := n) j x
  | witnessAsync {T V : Type} [CircuitType n T V] [CircuitType.Lawful n T] {s : Run n σ}
      (polls : Option Nat) (value : Future σ V)
      (hcheck : ∀ t, s.Extends t → ∀ x : T, InScope (n := n) t.nextVar x →
        Scoped t (CircuitType.check (n := n) x : Builder n σ Unit) fun _ _ => True) :
      Scoped s (witnessAsync polls value : Builder n σ (Option T))
        fun j x => ∀ y, x = some y → InScope (n := n) j y

theorem Scoped.keeps {s : Run n σ} {m : Builder n σ α} {Q : Nat → α → Prop} (h : Scoped s m Q)
    (hs : s.Complete) : Keeps s m Q := by
  induction h with
  | pure h => exact .pure hs h
  | throw fault => exact .throw hs fault
  | bind hm hf ihm ihf =>
      apply (ihm hs).bind
      intro a t hrun hst hP
      exact ihf a t hrun hst hP hst.complete
  | mono hm h ih => exact (ih hs).mono h
  | tryCatch hm hhandler ihm ihhandler =>
      apply (ihm hs).tryCatch
      intro fault t hrun hst
      exact ihhandler fault t hrun hst hst.complete
  | get => exact .get hs
  | reading m => exact .reading hs m
  | authored m => exact .authored hs m
  | within hm ih => exact .within hs (ih (Run.Extends.enter hs _).complete)
  | operation h => exact h.composed.keeps hs (Nat.le_refl _)
  | publicInput => exact .publicInput hs
  | store values => exact .store hs values
  | declare size hvalues ih => exact .declare hs (ih hs)
  | introduce checked hvalue hcheck ihvalue ihcheck =>
      refine .introduce hs (ihvalue (Run.Extends.inner hs).complete) fun hchecked t hst x hx => ?_
      exact ihcheck hchecked t hst x hx hst.complete
  | witnessAsync polls value hcheck ih =>
      exact .witnessAsync hs polls value fun t hst x hx => ih t hst x hx hst.complete

end Builder

namespace Run

/-- `t` is one of the states that a run gets into after `s`, be it between two operations,
inside of a computation that is passed to one, or after an operation that has failed. -/
inductive Reaches (s : Run n σ) : Run n σ → Prop
  | refl : Reaches s s
  | ok {t u : Run n σ} {α : Type} {m : Builder n σ α} {Q : Nat → α → Prop} {a : α}
      (ht : Reaches s t) (hm : Scoped t m Q) (hrun : m t = .ok a u) : Reaches s u
  | error {t u : Run n σ} {α : Type} {m : Builder n σ α} {Q : Nat → α → Prop} {fault : Fault}
      (ht : Reaches s t) (hm : Scoped t m Q) (hrun : m t = .error fault u) : Reaches s u
  | enter {t : Run n σ} (ht : Reaches s t) (context : Context) : Reaches s (t.enter context)
  | leave {t : Run n σ} (ht : Reaches s t) (depth : Nat) : Reaches s (t.leave depth)

theorem Reaches.extends {s t : Run n σ} (h : s.Reaches t) (hs : s.Complete) : s.Extends t := by
  induction h with
  | refl => exact .refl hs
  | ok ht hm hrun ih => exact ih.trans ((hm.keeps ih.complete).ok hrun).1
  | error ht hm hrun ih => exact ih.trans ((hm.keeps ih.complete).error hrun)
  | enter ht context ih => exact ih.trans (.enter ih.complete context)
  | leave ht depth ih => exact ih.leave depth

omit [Modulus n] in
theorem Complete.witnessValues_eq {s : Run n σ} (hs : s.Complete) :
    witnessValues s = .ok s.values s :=
  witnessValues_eq_ok.mpr ⟨hs.witness?_eq, rfl⟩

theorem Extends.decides_check {s t : Run n σ} (h : s.Extends t) (hs : s.constraints = []) :
    ∀ c ∈ t.constraints, c.Below t.nextVar ∧ Constraint.Decides (c.check t.lookup) := by
  obtain ⟨cs, hcs, hadded⟩ := h.constraints
  rw [hcs, hs, List.nil_append]
  intro c hc
  obtain ⟨hbelow, -⟩ := hadded c hc
  exact ⟨hbelow, (hbelow.readable fun _ hi => h.complete.lookup_isSome hi).decides⟩

/-- Wherever a proving run gets to, its variables are those of the public input and one for
each value stored. Constraints and results mention only these, each of them has a value, and
that never changes. The witness starts with the public input and has one value for each. -/
theorem complete_of_reaches (input : List (Residue n)) (recording evaluates : Bool) (author : σ) :
    ∃ s₀, supply input { start input.length recording author with evaluates } = .ok ⟨⟩ s₀ ∧
      ∀ s, s₀.Reaches s →
        s.nextVar = input.length + s.privateValues.size ∧
        (∀ c ∈ s.constraints, c.Below s.nextVar ∧
          ∀ fault, c.check s.lookup = .error fault → fault.isViolation = true) ∧
        (∀ x : Expr n, x.Below s.nextVar → (x.eval? s.lookup).isSome = true) ∧
        (∀ (α : Type) (m : Builder n σ α) Q a t, Scoped s m Q → m s = .ok a t →
          Q t.nextVar a) ∧
        (∀ t, s.Reaches t →
          s.nextVar ≤ t.nextVar ∧ ∀ i < s.nextVar, t.lookup i = s.lookup i) ∧
        ∃ values, witnessValues s = .ok values s ∧ values.length = s.nextVar ∧
          input <+: values := by
  refine ⟨_, supply_eq_ok.mpr ⟨rfl, rfl⟩, fun s hreaches => ?_⟩
  have hs := hreaches.extends ⟨rfl, rfl, rfl⟩
  have hpublic : s.publicValues = input.toArray := hs.publicValues
  have hsize : s.publicSize = input.length := by
    rw [← hs.complete.publicValues, hpublic, List.size_toArray]
  refine ⟨by rw [hs.complete.nextVar, hsize], hs.decides_check (by cases recording <;> rfl),
    fun x hx => Expr.eval?_isSome hx fun _ hi => hs.complete.lookup_isSome hi,
    fun α m Q a t hm hrun => ((hm.keeps hs.complete).ok hrun).2, fun t ht => ?_, s.values,
    hs.complete.witnessValues_eq, hs.complete.length_values, s.privateValues.toList, ?_⟩
  · have hst := ht.extends hs.complete
    exact ⟨hst.nextVar_le, hst.lookup⟩
  · rw [Run.values, hpublic]

end Run

theorem Builder.scoped_provideRoot {s : Run Pasta.p σ} (root : EStateM Fault σ Fp)
    {x : Expr Pasta.p} (hx : x.Below s.nextVar) :
    Scoped s (provideRoot root x) fun j y => y.Below j := by
  apply Scoped.bind (.introduce true (.authored root) fun _ _ _ _ _ => .pure trivial)
  intro y t _ hst hy
  have hy : y.Below t.nextVar := (inScope_expr _ _).mp hy
  apply Scoped.bind (.operation (.square hy))
  intro square u _ htu hsquare
  have hx : x.Below u.nextVar := hx.mono (Nat.le_trans hst.nextVar_le htu.nextVar_le)
  apply Scoped.bind (.operation (.assertEqual hsquare hx))
  intro _ v _ huv _
  exact .pure (hy.mono (Nat.le_trans htu.nextVar_le huv.nextVar_le))

theorem Run.complete_of_reaches_provideRoot :
    ∃ s : Run Pasta.p Fp,
      provideRoot get (.var 0) (Run.proof [9] 4) = .error (.violation (.notEqual 16 9)) s ∧
      (Run.proof [9] 4).Reaches s ∧ s.privateValues = #[4, 16] ∧
      s.nextVar = 1 + s.privateValues.size := by
  obtain ⟨s₀, hsupply, hreached⟩ := complete_of_reaches ([9] : List Fp) true true (4 : Fp)
  have hproof : s₀ = Run.proof [9] 4 := (supply_eq_ok.mp hsupply).2
  subst hproof
  have hfails : (match provideRoot get (.var 0) (Run.proof [9] (4 : Fp)) with
      | .ok _ _ => false
      | .error fault s => fault = .violation (.notEqual 16 9) ∧ s.privateValues = #[4, 16]) =
      true := by
    decide +kernel
  split at hfails
  · cases hfails
  · next fault s hrun =>
      obtain ⟨rfl, hvalues⟩ := of_decide_eq_true hfails
      have hroot : (.var 0 : Expr Pasta.p).Below (Run.proof ([9] : List Fp) (4 : Fp)).nextVar := Nat.one_pos
      have hreaches := Reaches.refl.error (scoped_provideRoot get hroot) hrun
      exact ⟨s, hrun, hreaches, hvalues, (hreached s hreaches).1⟩

end PallasCircuits
