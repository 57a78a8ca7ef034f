import PallasCircuits.Proofs.Completeness
import PallasCircuits.Proofs.Proving

namespace PallasCircuits

open Builder

variable {n : Nat} {σ α : Type}

/-! A primitive that fails leaves the run as it was, so that its caller may go on with it: neither
part of a list of constraints nor part of a list of values gets into it. -/

namespace Run

structure Undisturbed (s : Run n σ) (m : Builder n σ α) : Prop where
  ok : ∀ a t, m s = .ok a t → ∃ author, t = { s with author }
  error : ∀ fault t, m s = .error fault t → ∃ author, t = { s with author }

/-- Declaring as many variables as `size` says fails only with the error of `values` or because
these are not as many, and nothing is left of it. -/
structure DeclaresAll (s : Run n σ) (size : Nat) (values : Builder n σ (List (Residue n))) :
    Prop where
  fails_iff : ∀ fault t, declare size values s = .error fault t ↔
    (s.hasValues = true ∨ s.eager = true) ∧
      (values s = .error fault t ∨ ∃ vs, values s = .ok vs t ∧ vs.length ≠ size ∧
        fault = .violation (.valueCount vs.length size))
  untouched : ∀ fault t, declare size values s = .error fault t → ∃ author, t = { s with author }

theorem Undisturbed.declaresAll {s : Run n σ} {values : Builder n σ (List (Residue n))}
    (h : s.Undisturbed values) (size : Nat) : s.DeclaresAll size values where
  fails_iff _ _ := declare_eq_error
  untouched fault t hrun := by
    obtain ⟨-, hfault | ⟨vs, hvalues, -, -⟩⟩ := declare_eq_error.mp hrun
    · exact h.error fault t hfault
    · exact h.ok vs t hvalues

variable [Modulus n]

/-- Of the constraints that the values violate, the first one is reported, and this is how. -/
def Blames (s : Run n σ) (cs : List (Constraint n)) (violation : Violation) : Prop :=
  ∃ before c after, cs = before ++ c :: after ∧ (∀ d ∈ before, d.Holds s.assignment) ∧
    ¬c.Holds s.assignment ∧ c.check s.lookup = .error (.violation violation)

/-- `m` adds these constraints. It fails if they are checked and one of them does not hold, with
the error of the first one that does not, and then it adds none of them. -/
structure AddsAll (s : Run n σ) (m : Builder n σ Unit) (cs : List (Constraint n)) : Prop where
  fails_iff : (∃ fault t, m s = .error fault t) ↔
    s.hasValues = true ∧ (s.evaluates = true ∨ s.eager = true) ∧ ∃ c ∈ cs, ¬c.Holds s.assignment
  untouched : ∀ fault t, m s = .error fault t → t = s ∧
    ∃ violation, s.Blames cs violation ∧ fault = .violation violation
  recorded : ∀ t, m s = .ok () t → t = if s.eager then s else s.record cs

end Run

namespace Builder

theorem checks_iff {s : Run n σ} : s.checks = true ↔
    s.hasValues = true ∧ (s.evaluates = true ∨ s.eager = true) := by
  rw [Run.checks, Bool.and_eq_true, Bool.or_eq_true]

variable [Modulus n] {s : Run n σ} {cs : List (Constraint n)}

theorem FirstFault.blames {fault : Fault} (hcs : ∀ c ∈ cs, c.Readable s.lookup)
    (h : FirstFault s.lookup cs fault) :
    ∃ violation, s.Blames cs violation ∧ fault = .violation violation := by
  obtain ⟨before, c, after, rfl, hbefore, hc⟩ := h
  obtain ⟨hreads, hrest⟩ := List.forall_mem_append.mp hcs
  obtain ⟨hread, -⟩ := List.forall_mem_cons.mp hrest
  have hviolation := hread.decides fault hc
  cases fault with
  | violation violation =>
      refine ⟨violation, ⟨before, c, after, rfl, fun d hd => ?_, fun hholds => ?_, hc⟩, rfl⟩
      · exact (hreads d hd).check_eq_ok.mp (hbefore d hd)
      · rw [hread.check_eq_ok.mpr hholds] at hc
        cases hc
  | setup error => cases hviolation
  | abort => cases hviolation

theorem constrain_addsAll (hcs : s.hasValues = true → ∀ c ∈ cs, c.Readable s.lookup) :
    s.AddsAll (constrain cs) cs where
  fails_iff := by
    rw [← and_assoc, ← checks_iff]
    cases hrun : constrain cs s with
    | ok _ t =>
        obtain ⟨hchecks, -⟩ := constrain_eq_ok.mp hrun
        refine iff_of_false (by rintro ⟨_, _, ⟨⟩⟩) ?_
        rintro ⟨hchecked, c, hc, hviolated⟩
        have hread := hcs (checks_iff.mp hchecked).1 c hc
        exact hviolated (hread.check_eq_ok.mp (hchecks hchecked c hc))
    | error fault t =>
        obtain ⟨hchecked, hfirst, -⟩ := constrain_eq_error.mp hrun
        obtain ⟨_, ⟨before, c, after, rfl, -, hviolated, -⟩, -⟩ :=
          hfirst.blames (hcs (checks_iff.mp hchecked).1)
        refine iff_of_true ⟨fault, t, rfl⟩ ⟨hchecked, c, ?_, hviolated⟩
        exact List.mem_append_right before List.mem_cons_self
  untouched fault t hrun := by
    obtain ⟨hchecked, hfirst, ht⟩ := constrain_eq_error.mp hrun
    exact ⟨ht, hfirst.blames (hcs (checks_iff.mp hchecked).1)⟩
  recorded t hrun := (constrain_eq_ok.mp hrun).2

/-- Constraints whose variables can be read wherever there are values are added all at once or, if
they are checked and one of them does not hold, not at all, be it a list of them or a single one.
The same goes for the variables that a declaration stores, as long as the computation of their
values keeps off the run. -/
theorem primitives_atomic (s : Run n σ) :
    (∀ cs : List (Constraint n), (s.hasValues = true → ∀ c ∈ cs, c.Readable s.lookup) →
      s.AddsAll (constrain cs) cs) ∧
    (∀ c : Constraint n, (s.hasValues = true → c.Readable s.lookup) →
      s.AddsAll (assert c) [c]) ∧
    ∀ (size : Nat) (values : Builder n σ (List (Residue n))), s.Undisturbed values →
      s.DeclaresAll size values := by
  refine ⟨fun cs => constrain_addsAll, fun c hc => ?_, fun size values h => h.declaresAll size⟩
  exact constrain_addsAll fun hvalues => List.forall_mem_singleton.mpr (hc hvalues)

theorem primitives_atomic_second :
    (∃ violation, constrain [.square (.var 0) (.var 1), .equal (.var 0) (.var 1),
        .boolean (.var 0)] (.proof [3, 9] () : Run Pasta.p Unit) =
      .error (.violation violation) (.proof [3, 9] ())) ∧
    (∃ violation, assert (.boolean (.var 1)) (.proof [3, 9] () : Run Pasta.p Unit) =
      .error (.violation violation) (.proof [3, 9] ())) ∧
    ∃ author, declare 2 (pure [1]) (.proof [3, 9] () : Run Pasta.p Unit) =
      .error (.violation (.valueCount 1 2)) { Run.proof [3, 9] () with author } := by
  obtain ⟨hconstrain, hassert, hdeclare⟩ :=
    primitives_atomic (.proof [3, 9] () : Run Pasta.p Unit)
  have hlist := hconstrain [.square (.var 0) (.var 1), .equal (.var 0) (.var 1),
    .boolean (.var 0)] fun _ => by decide
  have hsingle := hassert (.boolean (.var 1)) fun _ => by decide
  have hvalues := hdeclare 2 (pure [1])
    ⟨fun _ _ hrun => ⟨(), by cases hrun; rfl⟩, fun _ _ hrun => by cases hrun⟩
  refine ⟨?_, ?_, ?_⟩
  · obtain ⟨fault, t, hrun⟩ := hlist.fails_iff.mpr
      ⟨rfl, .inl rfl, .equal (.var 0) (.var 1), by decide, by decide⟩
    obtain ⟨rfl, violation, -, rfl⟩ := hlist.untouched fault t hrun
    exact ⟨violation, hrun⟩
  · obtain ⟨fault, t, hrun⟩ := hsingle.fails_iff.mpr
      ⟨rfl, .inl rfl, .boolean (.var 1), by decide, by decide⟩
    obtain ⟨rfl, violation, -, rfl⟩ := hsingle.untouched fault t hrun
    exact ⟨violation, hrun⟩
  · have hrun := (hvalues.fails_iff (.violation (.valueCount 1 2)) (.proof [3, 9] ())).mpr
      ⟨.inl rfl, .inr ⟨[1], rfl, by decide, rfl⟩⟩
    obtain ⟨author, hauthor⟩ := hvalues.untouched _ _ hrun
    exact ⟨author, hauthor ▸ hrun⟩

example : (match (constrain [.square (.var 0) (.var 1), .equal (.var 0) (.var 1),
      .boolean (.var 0)] : Builder Pasta.p Unit Unit) (.proof [3, 9] ()) with
    | .ok _ _ => none
    | .error fault t => some (fault, t.constraints)) =
      some (.violation (.notEqual 3 9), []) := by
  decide +kernel

end Builder

end PallasCircuits
