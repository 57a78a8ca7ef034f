import PallasCircuits.Proofs.Proving

namespace PallasCircuits

/-! Where two circuits part. A list that ends early parts from one that goes on. -/

/-- Up to `i` the lists agree. There, their elements differ or just one of the lists has ended. -/
structure DivergeAt {α : Type} (as bs : List α) (i : Nat) : Prop where
  agree : as.take i = bs.take i
  part : (∃ a b, as[i]? = some a ∧ bs[i]? = some b ∧ a ≠ b) ∨
    Xor (as.length ≤ i) (bs.length ≤ i)

section

variable {α : Type} {as bs : List α} {i : Nat}

theorem part_iff_getElem?_ne : ((∃ a b, as[i]? = some a ∧ bs[i]? = some b ∧ a ≠ b) ∨
    Xor (as.length ≤ i) (bs.length ≤ i)) ↔ as[i]? ≠ bs[i]? := by
  rw [← List.getElem?_eq_none_iff, ← List.getElem?_eq_none_iff]
  cases as[i]? with
  | none =>
      cases bs[i]? with
      | none => simp [Xor]
      | some b => simp [Xor]
  | some a =>
      cases bs[i]? with
      | none => simp [Xor]
      | some b => simp [Xor]

theorem divergeAt_iff : DivergeAt as bs i ↔ as.take i = bs.take i ∧ as[i]? ≠ bs[i]? :=
  ⟨fun h => ⟨h.agree, part_iff_getElem?_ne.mp h.part⟩,
    fun h => ⟨h.1, part_iff_getElem?_ne.mpr h.2⟩⟩

theorem DivergeAt.symm (h : DivergeAt as bs i) : DivergeAt bs as i := by
  rw [divergeAt_iff] at h ⊢
  exact ⟨h.1.symm, h.2.symm⟩

theorem divergeAt_comm : DivergeAt as bs i ↔ DivergeAt bs as i :=
  ⟨.symm, .symm⟩

theorem DivergeAt.ne (h : DivergeAt as bs i) : as ≠ bs := by
  rintro rfl
  exact (divergeAt_iff.mp h).2 rfl

theorem divergeAt_nil_cons {b : α} : DivergeAt [] (b :: bs) i ↔ i = 0 := by
  rw [divergeAt_iff]
  cases i with
  | zero => simp
  | succ i => simp

theorem divergeAt_cons_zero {a b : α} : DivergeAt (a :: as) (b :: bs) 0 ↔ a ≠ b := by
  simp [divergeAt_iff]

theorem divergeAt_cons_succ {a b : α} :
    DivergeAt (a :: as) (b :: bs) (i + 1) ↔ a = b ∧ DivergeAt as bs i := by
  simp only [divergeAt_iff, List.take_succ_cons, List.cons.injEq, List.getElem?_cons_succ,
    and_assoc]

variable [DecidableEq α]

theorem firstDifference_eq_some_iff : firstDifference as bs = some i ↔ DivergeAt as bs i := by
  induction as generalizing bs i with
  | nil =>
      cases bs with
      | nil => exact iff_of_false (by rintro ⟨⟩) fun h => h.ne rfl
      | cons b bs =>
          change some 0 = some i ↔ _
          rw [divergeAt_nil_cons, Option.some_inj, eq_comm]
  | cons a as ih =>
      cases bs with
      | nil =>
          change some 0 = some i ↔ _
          rw [divergeAt_comm, divergeAt_nil_cons, Option.some_inj, eq_comm]
      | cons b bs =>
          rw [firstDifference]
          split
          · next hab =>
              cases i with
              | zero => simp [divergeAt_cons_zero, hab]
              | succ i => simp [divergeAt_cons_succ, hab, ih]
          · next hab =>
              cases i with
              | zero => simp [divergeAt_cons_zero, hab]
              | succ i => simp [divergeAt_cons_succ, hab]

theorem firstDifference_comm (as bs : List α) :
    firstDifference as bs = firstDifference bs as := by
  refine Option.ext fun i => ?_
  rw [firstDifference_eq_some_iff, firstDifference_eq_some_iff, divergeAt_comm]

theorem exists_divergeAt_of_ne (h : as ≠ bs) : ∃ i, DivergeAt as bs i := by
  cases hdifference : firstDifference as bs with
  | none => exact absurd (firstDifference_eq_none_iff.mp hdifference) h
  | some i => exact ⟨i, firstDifference_eq_some_iff.mp hdifference⟩

end

open Builder

variable {n : Nat} {σ : Type}

theorem Builder.assertSameShape_of_divergeAt {circuit : Compiled n} {s : Run n σ} {i : Nat}
    (h : DivergeAt circuit.system.constraints.toList s.constraints i) :
    assertSameShape circuit s = .error (.violation (.shape i)) s := by
  unfold assertSameShape System.firstDifference
  rw [get_bind_apply, firstDifference_eq_some_iff.mpr h]
  rfl

/-- The first difference of two circuits is none at all just if they are the same. Otherwise it is
the one position up to which they agree and from which on they do not, be it that one of them ends
there. A proving run passes the comparison with its circuit just if it has recorded all of its
constraints and no others, and is told this position if it has not. -/
theorem firstDifference_exact :
    (∀ as bs : List (Constraint n),
      (firstDifference as bs = none ↔ as = bs) ∧
      (∀ i, firstDifference as bs = some i ↔ DivergeAt as bs i) ∧
      firstDifference as bs = firstDifference bs as) ∧
    ∀ (circuit : Compiled n) (s : Run n σ),
      ((∃ t, assertSameShape circuit s = .ok () t) ↔
        s.constraints = circuit.system.constraints.toList) ∧
      (s.constraints ≠ circuit.system.constraints.toList → ∃ i,
        DivergeAt circuit.system.constraints.toList s.constraints i ∧
        assertSameShape circuit s = .error (.violation (.shape i)) s) := by
  refine ⟨fun as bs => ⟨firstDifference_eq_none_iff, fun i => firstDifference_eq_some_iff,
    firstDifference_comm as bs⟩, fun circuit s => ?_⟩
  constructor
  · constructor
    · rintro ⟨t, hrun⟩
      exact (assertSameShape_eq_ok.mp hrun).1.symm
    · intro hsame
      exact ⟨s, assertSameShape_eq_ok.mpr ⟨hsame.symm, rfl⟩⟩
  · intro hne
    obtain ⟨i, hi⟩ := exists_divergeAt_of_ne hne.symm
    exact ⟨i, hi, assertSameShape_of_divergeAt hi⟩

theorem firstDifference_exact_truncated :
    firstDifference [.boolean (.var 0), .range64 (.var 0)]
      [(.boolean (.var 0) : Constraint Pasta.p)] = some 1 ∧
    firstDifference [(.boolean (.var 0) : Constraint Pasta.p)]
      [.boolean (.var 0), .range64 (.var 0)] = some 1 ∧
    ∃ i, assertSameShape ⟨1, 1, ⟨1, #[.boolean (.var 0)]⟩⟩ (.proof [1] () : Run Pasta.p Unit) =
      .error (.violation (.shape i)) (.proof [1] ()) := by
  obtain ⟨hlists, hshape⟩ := firstDifference_exact (n := Pasta.p) (σ := Unit)
  obtain ⟨-, hposition, hsymmetric⟩ :=
    hlists [.boolean (.var 0), .range64 (.var 0)] [.boolean (.var 0)]
  have hdiverge : DivergeAt [.boolean (.var 0), .range64 (.var 0)]
      [(.boolean (.var 0) : Constraint Pasta.p)] 1 := ⟨rfl, .inr (by simp [Xor])⟩
  obtain ⟨-, hshort⟩ := hshape ⟨1, 1, ⟨1, #[.boolean (.var 0)]⟩⟩ (.proof [1] ())
  obtain ⟨i, -, hfails⟩ := hshort (by decide)
  exact ⟨(hposition 1).mpr hdiverge, hsymmetric ▸ (hposition 1).mpr hdiverge, i, hfails⟩

end PallasCircuits
