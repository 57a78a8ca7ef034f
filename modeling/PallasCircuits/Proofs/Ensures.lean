import PallasCircuits.Proofs.Builder
import PallasCircuits.Proofs.Constraint

namespace PallasCircuits

variable {n : Nat} {σ α β : Type}

/-! What follows from the constraints that a computation records, whatever a prover chooses
to put into their variables. -/

/-- The constraints that are added from here on become part of a circuit. -/
structure Run.Recording (s : Run n σ) : Prop where
  lazy : s.eager = false
  system : s.system.isSome = true

theorem Run.constraints_record {s : Run n σ} (hs : s.Recording)
    (cs : List (Constraint n)) : (s.record cs).constraints = s.constraints ++ cs := by
  obtain ⟨system, hsystem⟩ := Option.isSome_iff_exists.mp hs.system
  simp [Run.constraints, Run.record, hsystem]

theorem Run.Recording.record {s : Run n σ} (hs : s.Recording) (cs : List (Constraint n)) :
    (s.record cs).Recording where
  lazy := hs.lazy
  system := by simpa [Run.record] using hs.system

def Run.recordedSince (start t : Run n σ) : List (Constraint n) :=
  t.constraints.drop start.constraints.length

namespace Builder

def Quiet (m : Builder n σ α) : Prop :=
  ∀ s a t, m s = .ok a t → t = s

theorem quiet_pure (a : α) : Quiet (pure a : Builder n σ α) := by
  rintro s _ _ ⟨⟩
  rfl

theorem quiet_reading (m : Reading n α) : Quiet (reading m : Builder n σ α) :=
  fun _ _ _ h => (reading_eq_ok.mp h).2

theorem Quiet.bind {m : Builder n σ α} {f : α → Builder n σ β} (hm : Quiet m)
    (hf : ∀ a, Quiet (f a)) : Quiet (m >>= f) := by
  intro s b u h
  obtain ⟨a, t, hma, hfb⟩ := bind_eq_ok.mp h
  rw [hf a t b u hfb, hm s a t hma]

theorem Quiet.witnessing {m : Builder n σ α} (hm : Quiet m) : Quiet (witnessing m) := by
  intro s a t h
  obtain ⟨u, hinner, rfl⟩ := within_eq_ok.mp h
  rw [hm _ _ _ hinner, Run.leave_enter]

variable [Modulus n] (ρ : Nat → Residue n)

/-- If `ρ` satisfies the constraints that `m` records, then `P` holds of its result. -/
def Ensures (m : Builder n σ α) (P : α → Prop) : Prop :=
  ∀ s a t, s.Recording → m s = .ok a t →
    t.Recording ∧ ∃ cs, t.constraints = s.constraints ++ cs ∧
      ((∀ c ∈ cs, c.Holds ρ) → P a)

namespace Ensures

variable {ρ} {m : Builder n σ α} {f : α → Builder n σ β} {P : α → Prop} {Q : β → Prop}

theorem mono {P' : α → Prop} (hm : Ensures ρ m P) (h : ∀ a, P a → P' a) :
    Ensures ρ m P' := by
  intro s a t hs hrun
  obtain ⟨ht, cs, hcs, hpost⟩ := hm s a t hs hrun
  exact ⟨ht, cs, hcs, fun hholds => h a (hpost hholds)⟩

protected theorem and {P' : α → Prop} (hm : Ensures ρ m P) (hm' : Ensures ρ m P') :
    Ensures ρ m fun a => P a ∧ P' a := by
  intro s a t hs hrun
  obtain ⟨ht, cs, hcs, hP⟩ := hm s a t hs hrun
  obtain ⟨-, ds, hds, hP'⟩ := hm' s a t hs hrun
  obtain rfl : cs = ds := List.append_cancel_left (hcs.symm.trans hds)
  exact ⟨ht, cs, hcs, fun hholds => ⟨hP hholds, hP' hholds⟩⟩

theorem pure {a : α} (h : P a) : Ensures ρ (pure a : Builder n σ α) P := by
  rintro s _ _ hs ⟨⟩
  exact ⟨hs, [], by simp, fun _ => h⟩

theorem bind (hm : Ensures ρ m P) (hf : ∀ a, Ensures ρ (f a) fun b => P a → Q b) :
    Ensures ρ (m >>= f) Q := by
  intro s b u hs hrun
  obtain ⟨a, t, hma, hfb⟩ := bind_eq_ok.mp hrun
  obtain ⟨ht, cs, hcs, hpost⟩ := hm s a t hs hma
  obtain ⟨hu, ds, hds, hgoal⟩ := hf a t b u ht hfb
  refine ⟨hu, cs ++ ds, by rw [hds, hcs, List.append_assoc], fun hholds => ?_⟩
  exact hgoal (fun c hc => hholds c (List.mem_append_right cs hc))
    (hpost fun c hc => hholds c (List.mem_append_left ds hc))

theorem skip (hm : Ensures ρ m fun _ => True) (hf : ∀ a, Ensures ρ (f a) Q) :
    Ensures ρ (m >>= f) Q :=
  hm.bind fun a => (hf a).mono fun _ h _ => h

theorem guard {c : Prop} [Decidable c] {m : Builder n σ Unit} {f : Unit → Builder n σ β}
    {H : Prop} (hm : Ensures ρ m fun _ => H) (hf : Ensures ρ (f ()) fun b => (c → H) → Q b) :
    Ensures ρ (if c then m >>= f else f ()) Q := by
  split
  · exact hm.bind fun _ => hf.mono fun _ h hH => h fun _ => hH
  · next hc => exact hf.mono fun _ h => h fun hc' => absurd hc' hc

theorem throw (fault : Fault) : Ensures ρ (throw fault : Builder n σ α) P := by
  rintro s _ _ _ ⟨⟩

theorem failSetup (error : SetupError) :
    Ensures ρ (failSetup error : Builder n σ α) P := by
  rintro s _ _ _ ⟨⟩

theorem orAbort {o : Option α} (h : ∀ a, o = some a → P a) :
    Ensures ρ (orAbort o : Builder n σ α) P := by
  cases o with
  | none => exact throw .abort
  | some a => exact pure (h a rfl)

theorem constrain (cs : List (Constraint n)) :
    Ensures ρ (constrain cs : Builder n σ Unit) fun _ => ∀ c ∈ cs, c.Holds ρ := by
  intro s u t hs hrun
  obtain ⟨-, ht⟩ := constrain_eq_ok.mp hrun
  rw [hs.lazy, if_neg Bool.false_ne_true] at ht
  rw [ht]
  exact ⟨hs.record cs, cs, Run.constraints_record hs cs, id⟩

theorem assert (c : Constraint n) :
    Ensures ρ (assert c : Builder n σ Unit) fun _ => c.Holds ρ :=
  (constrain [c]).mono fun _ h => h c (List.mem_singleton_self c)

theorem forM {γ : Type} {xs : List γ} {g : γ → Builder n σ PUnit} {each : γ → Prop}
    (h : ∀ x, Ensures ρ (g x) fun _ => each x) :
    Ensures ρ (xs.forM g) fun _ => ∀ x ∈ xs, each x := by
  induction xs with
  | nil => exact pure (by simp)
  | cons x xs ih =>
      refine bind (h x) fun _ => ih.mono ?_
      intro _ hxs hx
      exact List.forall_mem_cons.mpr ⟨hx, hxs⟩

theorem declare {size : Nat} {values : Builder n σ (List (Residue n))}
    (hvalues : Quiet values) : Ensures ρ (declare size values) fun xs => xs.length = size := by
  intro s xs t hs hrun
  cases hphase : s.hasValues with
  | false =>
      rw [declare_of_setup hphase hs.lazy] at hrun
      cases hrun
      exact ⟨⟨hs.lazy, hs.system⟩, [], by simp [Run.constraints], fun _ => by simp⟩
  | true =>
      rw [declare_of_values (.inl hphase)] at hrun
      obtain ⟨values, r, hrun, hrest⟩ := bind_eq_ok.mp hrun
      obtain rfl := hvalues s values r hrun
      split at hrest
      · cases hrest
      · next hlength =>
          rw [get_bind_apply, hs.lazy] at hrest
          cases hrest
          exact ⟨⟨hs.lazy, hs.system⟩, [], by simp [Run.constraints], fun _ => by
            simpa using hlength⟩

theorem of_map {g : α → β} (h : Ensures ρ (m >>= fun a => Pure.pure (g a)) Q) :
    Ensures ρ m fun a => Q (g a) :=
  fun s a t hs hrun => h s (g a) t hs (bind_of_ok hrun)

theorem declareWith {size : Nat} {values : Builder n σ (List (Residue n) × α)}
    (hvalues : Quiet values) :
    Ensures ρ (declareWith size values) fun r => r.1.length = size := by
  have hfst : Ensures ρ (Builder.declareWith size values >>= fun r => Pure.pure r.1)
      fun xs => xs.length = size := by
    rw [fst_declareWith]
    exact declare (hvalues.bind fun _ => quiet_pure _)
  exact hfst.of_map

section

variable {T V : Type} [CircuitType n T V]

theorem introduce {checked : Bool} {value : Builder n σ V} {P : T → Prop}
    (hvalue : Quiet value) (hunchecked : checked = false → ∀ x, P x)
    (hcheck : checked = true → ∀ x : T,
      Ensures ρ (CircuitType.check (n := n) x : Builder n σ Unit) fun _ => P x) :
    Ensures ρ (introduce checked value : Builder n σ T) P := by
  intro s x t hs hrun
  rw [introduce_of_lazy hs.lazy] at hrun
  refine skip (m := Builder.declareWith _ _) ((declareWith ?_).mono fun _ _ => trivial)
    (fun r => ?_) s x t hs hrun
  · exact (hvalue.witnessing).bind fun _ => quiet_pure _
  · refine skip (orAbort fun _ _ => trivial) fun x => ?_
    cases checked with
    | false => exact pure (hunchecked rfl x)
    | true => exact bind (hcheck rfl x) fun _ => pure id

theorem compute {value : Reading n V} {P : T → Prop}
    (hcheck : ∀ x : T,
      Ensures ρ (CircuitType.check (n := n) x : Builder n σ Unit) fun _ => P x) :
    Ensures ρ (compute value : Builder n σ T) P :=
  introduce (quiet_reading value) (by rintro ⟨⟩) fun _ => hcheck

theorem computeUnchecked {value : Reading n V} :
    Ensures ρ (computeUnchecked value : Builder n σ T) fun _ => True :=
  introduce (quiet_reading value) (fun _ _ => trivial) (by rintro ⟨⟩)

end

theorem of_recordedSince (hm : Ensures ρ m P) {s t : Run n σ} {a : α} (hs : s.Recording)
    (hrun : m s = .ok a t) (hholds : ∀ c ∈ s.recordedSince t, c.Holds ρ) : P a := by
  obtain ⟨-, cs, hcs, hP⟩ := hm s a t hs hrun
  apply hP
  rwa [Run.recordedSince, hcs, List.drop_left] at hholds

end Ensures

/-- Whether `m` succeeds from this state and `ρ` satisfies what it records. -/
def satisfiedBy (m : Builder n σ α) (s : Run n σ) : Bool :=
  match m s with
  | .ok _ t => (s.recordedSince t).all fun c => (c.check fun i => some (ρ i)).isOk
  | .error _ _ => false

def satisfiedUpTo (known : Constraint n → Bool) (m : Builder n σ α) (s : Run n σ) : Bool :=
  match m s with
  | .ok _ t =>
      (s.recordedSince t).all fun c => known c || (c.check fun i => some (ρ i)).isOk
  | .error _ _ => false

theorem exists_of_satisfiedUpTo {ρ : Nat → Residue n} {known : Constraint n → Bool}
    (hknown : ∀ c, known c = true → c.Holds ρ) {m : Builder n σ α} {s : Run n σ}
    (h : satisfiedUpTo ρ known m s = true) :
    ∃ a t, m s = .ok a t ∧ ∀ c ∈ s.recordedSince t, c.Holds ρ := by
  unfold satisfiedUpTo at h
  split at h
  · next a t hrun =>
      refine ⟨a, t, hrun, fun c hc => ?_⟩
      rcases Bool.or_eq_true_iff.mp (List.all_eq_true.mp h c hc) with hc | hok
      · exact hknown c hc
      · unfold Constraint.Holds
        cases hcheck : c.check fun i => some (ρ i) with
        | ok _ => rfl
        | error fault =>
            rw [hcheck] at hok
            cases hok
  · cases h

theorem exists_of_satisfiedBy {ρ : Nat → Residue n} {m : Builder n σ α} {s : Run n σ}
    (h : satisfiedBy ρ m s = true) :
    ∃ a t, m s = .ok a t ∧ ∀ c ∈ s.recordedSince t, c.Holds ρ := by
  have hup : satisfiedUpTo ρ (fun _ => false) m s = true := h
  exact exists_of_satisfiedUpTo (by rintro _ ⟨⟩) hup

end Builder

end PallasCircuits
