import PallasCircuits.Proofs.CircuitType
import PallasCircuits.Proofs.Ensures

namespace PallasCircuits

variable {n : Nat} {σ α β : Type}

/-! Which computations set a circuit up without an error. -/

/-- A run that records constraints and has no values. -/
structure Run.SettingUp (s : Run n σ) : Prop extends s.Recording where
  valueless : s.hasValues = false

namespace Builder

/-- Setup runs of `m` succeed, and `P` holds of their result. -/
def Builds (m : Builder n σ α) (P : α → Prop) : Prop :=
  ∀ s, s.SettingUp → ∃ a t, m s = .ok a t ∧ t.SettingUp ∧ P a

namespace Builds

variable {m : Builder n σ α} {f : α → Builder n σ β} {P : α → Prop} {Q : β → Prop}

theorem mono {P' : α → Prop} (hm : Builds m P) (h : ∀ a, P a → P' a) : Builds m P' := by
  intro s hs
  obtain ⟨a, t, hrun, ht, ha⟩ := hm s hs
  exact ⟨a, t, hrun, ht, h a ha⟩

theorem pure {a : α} (h : P a) : Builds (pure a : Builder n σ α) P :=
  fun s hs => ⟨a, s, rfl, hs, h⟩

theorem bind (hm : Builds m P) (hf : ∀ a, P a → Builds (f a) Q) : Builds (m >>= f) Q := by
  intro s hs
  obtain ⟨a, t, hma, ht, ha⟩ := hm s hs
  obtain ⟨b, u, hfb, hu, hb⟩ := hf a ha t ht
  exact ⟨b, u, (bind_of_ok hma).trans hfb, hu, hb⟩

theorem orAbort {o : Option α} {a : α} (ho : o = some a) (h : P a) :
    Builds (orAbort o : Builder n σ α) P := by
  rw [ho]
  exact pure h

theorem guard {c : Prop} [Decidable c] {m : Builder n σ Unit} {f : Unit → Builder n σ β}
    (hm : c → Builds m fun _ => True) (hf : Builds (f ()) Q) :
    Builds (if c then m >>= f else f ()) Q := by
  split
  · next hc => exact (hm hc).bind fun _ _ => hf
  · exact hf

theorem forM {γ : Type} {xs : List γ} {g : γ → Builder n σ PUnit}
    (h : ∀ x ∈ xs, Builds (g x) fun _ => True) : Builds (xs.forM g) fun _ => True := by
  induction xs with
  | nil => exact pure trivial
  | cons x xs ih =>
      obtain ⟨hx, hxs⟩ := List.forall_mem_cons.mp h
      exact bind hx fun _ _ => ih hxs

theorem declare {size : Nat} {values : Builder n σ (List (Residue n))} :
    Builds (declare size values)
      fun xs => xs.length = size ∧ ∀ x ∈ xs, 0 < x.occurrences := by
  intro s hs
  rw [declare_of_setup hs.valueless hs.lazy]
  refine ⟨_, _, rfl, ⟨⟨hs.lazy, hs.system⟩, hs.valueless⟩, by simp, ?_⟩
  intro x hx
  obtain ⟨i, -, rfl⟩ := List.mem_map.mp hx
  exact Nat.one_pos

theorem of_map {g : α → β} {Q : β → Prop} (h : Builds (m >>= fun a => Pure.pure (g a)) Q) :
    Builds m fun a => Q (g a) := by
  intro s hs
  obtain ⟨b, t, hrun, ht, hQ⟩ := h s hs
  obtain ⟨a, u, hma, hpure⟩ := bind_eq_ok.mp hrun
  cases hpure
  exact ⟨a, t, hma, ht, hQ⟩

theorem declareWith {size : Nat} {values : Builder n σ (List (Residue n) × α)} :
    Builds (declareWith size values)
      fun r => r.1.length = size ∧ ∀ x ∈ r.1, 0 < x.occurrences := by
  have hfst : Builds (Builder.declareWith size values >>= fun r => Pure.pure r.1)
      fun xs => xs.length = size ∧ ∀ x ∈ xs, 0 < x.occurrences := by
    rw [fst_declareWith]
    exact declare
  exact hfst.of_map

section

variable {T V : Type} [CircuitType n T V] [CircuitType.Lawful n T]

theorem introduce {checked : Bool} {value : Builder n σ V} {P : T → Prop}
    (h : ∀ x : T, (∀ e ∈ CircuitType.toExprs (n := n) x, 0 < e.occurrences) →
      Builds (if checked then CircuitType.check (n := n) x else Pure.pure () : Builder n σ Unit)
        fun _ => P x) :
    Builds (introduce checked value : Builder n σ T) P := by
  intro s hs
  rw [introduce_of_lazy hs.lazy]
  refine bind declareWith (fun r ⟨hlength, hopen⟩ => ?_) s hs
  obtain ⟨x, hx, hexprs, -⟩ := CircuitType.Lawful.exists_ofExprs? (T := T) r.1
    (r.2.getD CircuitType.setupAux) hlength
  refine bind (orAbort (P := fun y => y = x) hx rfl) fun y hy => ?_
  subst hy
  rw [← hexprs] at hopen
  exact bind (h y hopen) fun _ hP => pure hP

theorem compute {value : Reading n V} {P : T → Prop}
    (h : ∀ x : T, (∀ e ∈ CircuitType.toExprs (n := n) x, 0 < e.occurrences) →
      Builds (CircuitType.check (n := n) x : Builder n σ Unit) fun _ => P x) :
    Builds (compute value : Builder n σ T) P := by
  change Builds (Builder.introduce true (reading value)) P
  exact introduce h

theorem computeUnchecked {value : Reading n V} :
    Builds (computeUnchecked value : Builder n σ T) fun _ => True :=
  introduce fun _ _ => pure trivial

end

variable [Modulus n]

theorem constrain (cs : List (Constraint n)) :
    Builds (constrain cs : Builder n σ Unit) fun _ => True := by
  intro s hs
  have hchecks : s.checks = false := by
    rw [Run.checks, hs.valueless, Bool.false_and]
  refine ⟨(), s.record cs, constrain_eq_ok.mpr ⟨?_, ?_⟩, ⟨hs.record cs, hs.valueless⟩, trivial⟩
  · rw [hchecks]
    rintro ⟨⟩
  · rw [hs.lazy, if_neg Bool.false_ne_true]

theorem assert (c : Constraint n) : Builds (assert c : Builder n σ Unit) fun _ => True :=
  constrain [c]

end Builds

end Builder

end PallasCircuits
