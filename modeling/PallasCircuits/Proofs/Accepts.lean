import PallasCircuits.Proofs.Extends
import PallasCircuits.Proofs.Lockstep

namespace PallasCircuits

variable {n : Nat} [Modulus n] {σ α : Type}

/-! Which values a computation accepts for the variables that there are already. Its constraints
accept those for which the variables that it adds can be chosen so that all of them hold, whoever
chooses. An honest prover computes its choice, and so accepts what `Proves` says. When both
accept the same values the computation decides whether they have the property in question. -/

def Local (k : Nat) (P : (Nat → Residue n) → Prop) : Prop :=
  ∀ ⦃ρ ρ' : Nat → Residue n⦄, (∀ i < k, ρ' i = ρ i) → P ρ → P ρ'

omit [Modulus n] in
theorem local_true (k : Nat) : Local k fun _ : Nat → Residue n => True :=
  fun _ _ _ _ => trivial

theorem local_eval {k : Nat} {x : Expr n} (hx : x.Below k) (P : Residue n → Prop) :
    Local k fun ρ => P (x.eval ρ) := by
  intro ρ ρ' h hP
  rwa [Expr.eval_congr h hx]

namespace Run

/-- The values that the variables of `start` have under `ρ` extend to some that satisfy what was
recorded from there on. -/
def Solvable (start u : Run n σ) (ρ : Nat → Residue n) : Prop :=
  ∃ ρ' : Nat → Residue n, (∀ i < start.nextVar, ρ' i = ρ i) ∧
    ∀ c ∈ start.recordedSince u, c.Holds ρ'

section

omit [Modulus n]

def withValues (s : Run n σ) (ρ : Nat → Residue n) : Run n σ :=
  { s with
    publicValues := ((List.range s.nextVar).map ρ).toArray
    privateValues := #[]
    evaluates := true
    publicSize := s.nextVar
    hasValues := true }

theorem SettingUp.lockstep_withValues {s : Run n σ} (hs : s.SettingUp) (ρ : Nat → Residue n) :
    s.Lockstep true (s.withValues ρ) where
  settingUp := hs
  complete := ⟨rfl, by simp [withValues], rfl⟩
  evaluates := rfl
  contexts := rfl
  system := rfl
  nextVar := rfl

theorem Proving.lockstep {s : Run n σ} (hs : s.Proving) :
    ({ s with hasValues := false } : Run n σ).Lockstep s.evaluates s where
  settingUp := ⟨⟨hs.lazy, hs.system⟩, rfl⟩
  complete := hs.toComplete
  evaluates := rfl
  contexts := rfl
  system := rfl
  nextVar := rfl

theorem Lockstep.proving {evaluates : Bool} {s t : Run n σ} (h : s.Lockstep evaluates t) :
    t.Proving where
  toRecording := ⟨h.lazy, h.system ▸ h.settingUp.system⟩
  toComplete := h.complete

theorem Lockstep.recordedSince_eq {evaluates : Bool} {s s' t t' : Run n σ}
    (h : s.Lockstep evaluates t) (h' : s'.Lockstep evaluates t') :
    t.recordedSince t' = s.recordedSince s' := by
  unfold recordedSince constraints
  rw [h.system, h'.system]

end

theorem assignment_withValues (s : Run n σ) (ρ : Nat → Residue n) {i : Nat} (hi : i < s.nextVar) :
    (s.withValues ρ).assignment i = ρ i := by
  simp [assignment, lookup, withValues, hi]

end Run

namespace Builder

/-- Where `given` holds, `m` accepts just the values for which `accepted` holds, whether it is
its constraints or an honest prover that decides. Both speak of the first `k` variables. -/
structure Accepts (k : Nat) (m : Builder n σ α) (given accepted : (Nat → Residue n) → Prop) :
    Prop where
  local_given : Local k given
  local_accepted : Local k accepted
  composed : ∃ Q, Composed k m Q
  builds : Builds m fun _ => True
  sound : ∀ ρ, Ensures ρ m fun _ => given ρ → accepted ρ
  complete : ∀ s : Run n σ, k ≤ s.nextVar → given s.assignment → accepted s.assignment →
    Proves s m fun _ _ => True

namespace Accepts

variable {k : Nat} {m : Builder n σ α} {given accepted : (Nat → Residue n) → Prop}
  {start u : Run n σ} {a : α}

theorem solvable_iff (h : Accepts k m given accepted) (hstart : start.SettingUp)
    (hk : k ≤ start.nextVar) (hrun : m start = .ok a u) {ρ : Nat → Residue n}
    (hgiven : given ρ) : start.Solvable u ρ ↔ accepted ρ := by
  constructor
  · rintro ⟨ρ', hsame, hholds⟩
    have hsame' : ∀ i < k, ρ' i = ρ i := fun i hi => hsame i (Nat.lt_of_lt_of_le hi hk)
    have haccepted : accepted ρ' := (h.sound ρ').of_recordedSince hstart.toRecording hrun hholds
      (h.local_given hsame' hgiven)
    exact h.local_accepted (fun i hi => (hsame' i hi).symm) haccepted
  · intro haccepted
    have hstep := hstart.lockstep_withValues ρ
    have hsame : ∀ i < start.nextVar, (start.withValues ρ).assignment i = ρ i := fun i hi =>
      start.assignment_withValues ρ hi
    have hsame' : ∀ i < k, (start.withValues ρ).assignment i = ρ i := fun i hi =>
      hsame i (Nat.lt_of_lt_of_le hi hk)
    obtain ⟨b, t, hprove, hadvances, -⟩ := h.complete (start.withValues ρ) hk
      (h.local_given hsame' hgiven) (h.local_accepted hsame' haccepted) hstep.proving
    obtain ⟨Q, hcomposed⟩ := h.composed
    rcases hcomposed.parallel.prove hstep hk hrun with
      ⟨b', t', hprove', hstep', -⟩ | ⟨fault, t', hprove', -⟩
    · rw [hprove'] at hprove
      cases hprove
      refine ⟨t.assignment, fun i hi => (hadvances.assignment i hi).trans (hsame i hi), ?_⟩
      rw [← hstep.recordedSince_eq hstep']
      exact hadvances.holds_recordedSince
    · rw [hprove'] at hprove
      cases hprove

theorem violation_of_not (h : Accepts k m given accepted) (hstart : start.Proving)
    (hk : k ≤ start.nextVar) (heval : start.evaluates = true) (hgiven : given start.assignment)
    (hnot : ¬accepted start.assignment) :
    ∃ violation u, m start = .error (.violation violation) u := by
  obtain ⟨Q, hcomposed⟩ := h.composed
  have hstep := hstart.lockstep
  obtain ⟨a, u, hrun, -⟩ := h.builds _ hstep.settingUp
  rcases hcomposed.parallel.prove hstep hk hrun with ⟨b, t, hprove, -⟩ | ⟨fault, t, hprove, hfault⟩
  · obtain ⟨hadvances, -, haccepted⟩ := hcomposed.of_ensures h.sound hstart hk heval hprove
    have hsame : ∀ i < k, start.assignment i = t.assignment i := fun i hi =>
      (hadvances.assignment i (Nat.lt_of_lt_of_le hi hk)).symm
    have hgiven' := h.local_given (fun i hi => (hsame i hi).symm) hgiven
    exact absurd (h.local_accepted hsame (haccepted hgiven')) hnot
  · obtain ⟨-, hviolation⟩ := hfault.resolve_left id
    cases fault with
    | violation violation => exact ⟨violation, t, hprove⟩
    | setup error => cases hviolation
    | abort => cases hviolation

end Accepts

/-- From this state, the assertion `m` decides whether the values of the variables so far are
`accepted`, where `given` holds. Its circuit is there in any case: the values accepted extend to
some that satisfy it, and no others do. Honest runs go through with these values, and with no
others. -/
structure Decides (start : Run n σ) (m : Builder n σ Unit)
    (given accepted : (Nat → Residue n) → Prop) : Prop where
  circuit : start.SettingUp → ∃ u, m start = .ok () u ∧
    ∀ ρ, given ρ → (start.Solvable u ρ ↔ accepted ρ)
  passes : start.Proving → given start.assignment → accepted start.assignment →
    ∃ u, m start = .ok () u ∧ start.Advances u
  rejects : start.Proving → start.evaluates = true → given start.assignment →
    ¬accepted start.assignment → ∃ violation u, m start = .error (.violation violation) u

theorem Accepts.decides {k : Nat} {m : Builder n σ Unit} {given accepted : (Nat → Residue n) → Prop}
    (h : Accepts k m given accepted) {start : Run n σ} (hk : k ≤ start.nextVar) :
    Decides start m given accepted where
  circuit hstart := by
    obtain ⟨⟨⟩, u, hrun, -⟩ := h.builds start hstart
    exact ⟨u, hrun, fun ρ hgiven => h.solvable_iff hstart hk hrun hgiven⟩
  passes hstart hgiven haccepted := by
    obtain ⟨⟨⟩, u, hrun, hadvances, -⟩ := h.complete start hk hgiven haccepted hstart
    exact ⟨u, hrun, hadvances⟩
  rejects hstart heval hgiven hnot := h.violation_of_not hstart hk heval hgiven hnot

end Builder

end PallasCircuits
