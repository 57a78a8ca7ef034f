import PallasCircuits.Proofs.Field.Prime
import PallasCircuits.Proofs.Setup

namespace PallasCircuits

open Builder

variable {n : Nat} {σ : Type}

/-! Gadgets set up without an error as long as they are not asked to equate constants. -/

namespace CircuitType

theorem check_expr_builds (x : Expr n) :
    Builds (check (n := n) x : Builder n σ Unit) fun _ => True :=
  .pure trivial

theorem check_exprs_builds (x : Expr n × Expr n) :
    Builds (check (n := n) x : Builder n σ Unit) fun _ => True :=
  (check_expr_builds x.1).bind fun _ _ => check_expr_builds x.2

end CircuitType

namespace Expr

theorem compute_builds {value : Reading n (Residue n)} :
    Builds (compute value : Builder n σ (Expr n)) fun z => 0 < z.occurrences :=
  .compute fun z hz => (CircuitType.check_expr_builds z).mono fun _ _ =>
    hz z (List.mem_singleton_self z)

theorem compute_pair_builds {value : Reading n (Residue n × Residue n)} :
    Builds (compute value : Builder n σ (Expr n × Expr n))
      fun z => 0 < z.1.occurrences ∧ 0 < z.2.occurrences :=
  .compute fun z hz => (CircuitType.check_exprs_builds z).mono fun _ _ =>
    ⟨hz z.1 (by simp [CircuitType.toExprs]), hz z.2 (by simp [CircuitType.toExprs])⟩

variable [Modulus n]

theorem toConstant?_of_pos {x : Expr n} (h : 0 < x.occurrences) : x.toConstant? = none :=
  (toConstant?_eq_none_iff x).mpr h

theorem toConstant?_of_eq_zero {x : Expr n} (h : x.occurrences = 0) :
    ∃ a, x.toConstant? = some a := by
  rw [← Option.ne_none_iff_exists', ne_eq, toConstant?_eq_none_iff]
  omega

theorem toConstant?_neg {x : Expr n} {a : Residue n} (hx : x.toConstant? = some a) :
    (-x).toConstant? = some (-a) := by
  rw [← neg_one_mul]
  exact toConstant?_smul (-1) hx

theorem mul_builds (x y : Expr n) :
    Builds (x.mul y : Builder n σ (Expr n)) fun z =>
      (0 < x.occurrences → 0 < y.occurrences → 0 < z.occurrences) ∧
      (x.occurrences = 0 → y.occurrences = 0 → ∀ ρ, z.eval ρ = x.eval ρ * y.eval ρ) := by
  unfold mul
  cases hx : x.toConstant? with
  | some a =>
      have hclosed : ¬0 < x.occurrences := by
        rw [← toConstant?_eq_none_iff, hx]
        simp
      cases hy : y.toConstant? with
      | some b =>
          refine .pure ⟨fun h => absurd h hclosed, fun _ _ ρ => ?_⟩
          rw [eval_const, eval_of_toConstant? ρ hx, eval_of_toConstant? ρ hy]
      | none =>
          have hopen := (toConstant?_eq_none_iff y).mp hy
          exact .pure ⟨fun h => absurd h hclosed, fun _ h => absurd h hopen.ne'⟩
  | none =>
      have hopen := (toConstant?_eq_none_iff x).mp hx
      cases hy : y.toConstant? with
      | some b =>
          have hclosed : ¬0 < y.occurrences := by
            rw [← toConstant?_eq_none_iff, hy]
            simp
          exact .pure ⟨fun _ h => absurd h hclosed, fun h => absurd h hopen.ne'⟩
      | none =>
          exact compute_builds.bind fun z hz => (Builds.assert _).bind fun _ _ =>
            .pure ⟨fun _ _ => hz, fun h => absurd h hopen.ne'⟩

theorem square_builds (x : Expr n) :
    Builds (x.square : Builder n σ (Expr n)) fun _ => True := by
  unfold square
  cases x.toConstant? with
  | some a => exact .pure trivial
  | none => exact compute_builds.bind fun y _ => (Builds.assert _).bind fun _ _ => .pure trivial

theorem wire_builds (x : Expr n) :
    Builds (x.wire : Builder n σ (Expr n)) fun y => 0 < x.occurrences → 0 < y.occurrences := by
  unfold wire
  split
  · exact .pure id
  · exact .pure id
  · cases hx : x.toConstant? with
    | some a =>
        apply Builds.pure
        intro h
        rw [toConstant?_of_pos h] at hx
        cases hx
    | none =>
        exact compute_builds.bind fun z hz => (Builds.assert _).bind fun _ _ => .pure fun _ => hz

theorem assertEqual_builds {x y : Expr n}
    (h : ∀ a b, x.toConstant? = some a → y.toConstant? = some b → a = b) :
    Builds (x.assertEqual y : Builder n σ Unit) fun _ => True := by
  unfold assertEqual
  cases hx : x.toConstant? with
  | none => exact .assert _
  | some a =>
      cases hy : y.toConstant? with
      | none => exact .assert _
      | some b =>
          simp only [if_pos (h a b hx hy)]
          exact .pure trivial

theorem assertEqual_builds_of_pos {x y : Expr n} (h : 0 < x.occurrences + y.occurrences) :
    Builds (x.assertEqual y : Builder n σ Unit) fun _ => True := by
  apply assertEqual_builds
  intro a b hx hy
  have hopen : 0 < x.occurrences ∨ 0 < y.occurrences := by omega
  rcases hopen with h | h
  · rw [toConstant?_of_pos h] at hx
    cases hx
  · rw [toConstant?_of_pos h] at hy
    cases hy

theorem assertBool_builds {x : Expr n}
    (h : ∀ a, x.toConstant? = some a → a = 0 ∨ a = 1) :
    Builds (x.assertBool : Builder n σ (BoolVar n)) fun b => b.expr = x := by
  unfold assertBool
  cases hx : x.toConstant? with
  | some a =>
      simp only [if_pos (h a hx)]
      exact .pure rfl
  | none => exact (Builds.assert _).bind fun _ _ => .pure rfl

theorem isEqual_builds (x y : Expr n) :
    Builds (x.isEqual y : Builder n σ (BoolVar n)) fun b =>
      (0 < x.occurrences + y.occurrences → 0 < b.expr.occurrences) ∧
      (x.occurrences + y.occurrences = 0 →
        ∃ v : Bool, b = .constant v ∧ ∀ ρ, v = decide (x.eval ρ = y.eval ρ)) := by
  simp only [isEqual]
  cases hz : (x - y).toConstant? with
  | some a =>
      refine .pure ⟨fun h => ?_, fun _ => ⟨_, rfl, fun ρ => decide_eq_decide.mpr ?_⟩⟩
      · rw [← occurrences_minus] at h
        rw [toConstant?_of_pos h] at hz
        cases hz
      · rw [← eval_of_toConstant? ρ hz, eval_minus, sub_eq_zero]
  | none =>
      have hopen := (toConstant?_eq_none_iff (x - y)).mp hz
      rw [occurrences_minus] at hopen
      refine compute_pair_builds.bind ?_
      rintro ⟨flag, inverse⟩ ⟨hflag, -⟩
      exact (Builds.assert _).bind fun _ _ => (Builds.assert _).bind fun _ _ =>
        .pure ⟨fun _ => hflag, fun h => absurd h hopen.ne'⟩

end Expr

variable [Modulus n]

namespace BoolVar

theorem and_builds (x y : BoolVar n) :
    Builds (x.and y : Builder n σ (BoolVar n)) fun z =>
      (0 < x.expr.occurrences → 0 < y.expr.occurrences → 0 < z.expr.occurrences) ∧
      (x.expr.occurrences = 0 → y.expr.occurrences = 0 →
        ∀ ρ, z.expr.eval ρ = x.expr.eval ρ * y.expr.eval ρ) :=
  (Expr.mul_builds x.expr y.expr).bind fun _ hz => .pure hz

theorem or_builds (x y : BoolVar n) :
    Builds (x.or y : Builder n σ (BoolVar n)) fun z =>
      (0 < x.expr.occurrences → 0 < y.expr.occurrences → 0 < z.expr.occurrences) ∧
      (∀ u v, x = .constant u → y = .constant v → ∀ ρ, z.expr.eval ρ = .ofBool (u || v)) := by
  refine (and_builds x.not y.not).bind fun z hz => .pure ⟨fun hx hy => ?_, ?_⟩
  · have hopen := hz.1 (by simpa [BoolVar.not] using Or.inr hx)
      (by simpa [BoolVar.not] using Or.inr hy)
    simpa [BoolVar.not] using Or.inr hopen
  · rintro u v rfl rfl ρ
    simp only [BoolVar.not, Expr.eval_minus, Expr.eval_one]
    rw [hz.2 rfl rfl]
    cases u <;> cases v <;> simp [BoolVar.not, constant]

theorem any_builds (xs : List (BoolVar n)) :
    Builds (any xs : Builder n σ (BoolVar n)) fun _ => True := by
  unfold any
  split
  · exact .pure trivial
  · exact .pure trivial
  · next x y => exact (or_builds x y).mono fun _ _ => trivial
  · exact (Expr.isEqual_builds _ 0).bind fun _ _ => .pure trivial

theorem all_builds (xs : List (BoolVar n)) :
    Builds (all xs : Builder n σ (BoolVar n)) fun _ => True := by
  unfold all
  split
  · exact .pure trivial
  · exact .pure trivial
  · next x y => exact (and_builds x y).mono fun _ _ => trivial
  · exact (Expr.isEqual_builds _ _).mono fun _ _ => trivial

theorem xor_builds (x y : BoolVar n) :
    Builds (x.xor y : Builder n σ (BoolVar n)) fun _ => True := by
  unfold BoolVar.xor
  split
  · exact .pure trivial
  · exact .pure trivial
  · exact .pure trivial
  · exact .pure trivial
  · exact Builds.computeUnchecked.bind fun _ _ => (Builds.assert _).bind fun _ _ => .pure trivial

theorem choose_builds (b : BoolVar n) (x y : Expr n) :
    Builds (b.choose x y : Builder n σ (Expr n)) fun _ => True := by
  have hvar : Builds (b.chooseVar x y : Builder n σ (Expr n)) fun _ => True :=
    Expr.compute_builds.bind fun _ _ => (Builds.assert _).bind fun _ _ => .pure trivial
  unfold choose
  cases b.expr.toConstant? with
  | some a => exact .pure trivial
  | none =>
      cases x.toConstant? with
      | none => exact hvar
      | some c =>
          cases y.toConstant? with
          | none => exact hvar
          | some d => exact .pure trivial

theorem chooseEach_builds (b : BoolVar n) (xs ys : List (Expr n))
    (hlength : xs.length = ys.length) :
    Builds (b.chooseEach xs ys : Builder n σ (List (Expr n)))
      fun zs => zs.length = xs.length := by
  induction xs generalizing ys with
  | nil => exact .pure rfl
  | cons x xs ih =>
      cases ys with
      | nil => cases hlength
      | cons y ys =>
          apply (choose_builds b x y).bind
          intro z _
          refine (ih ys (Nat.succ.inj hlength)).bind fun zs hzs => .pure ?_
          rw [List.length_cons, List.length_cons, hzs]

theorem select_builds {T V : Type} [CircuitType n T V] [CircuitType.Lawful n T]
    (b : BoolVar n) (x y : T) : Builds (b.select x y : Builder n σ T) fun _ => True := by
  have hx := CircuitType.Lawful.length_toExprs (n := n) x
  have hy := CircuitType.Lawful.length_toExprs (n := n) y
  apply (chooseEach_builds b _ _ (hx.trans hy.symm)).bind
  intro zs hzs
  obtain ⟨z, hz, -⟩ := CircuitType.Lawful.exists_ofExprs? (T := T) zs
    (CircuitType.aux x) (hzs.trans hx)
  exact .orAbort hz trivial

theorem addEach_builds (b : BoolVar n) (sums xs : List (Expr n)) :
    Builds (b.addEach sums xs : Builder n σ (List (Expr n)))
      fun zs => zs.length = sums.length := by
  induction sums generalizing xs with
  | nil => exact .pure rfl
  | cons sum sums ih =>
      cases xs with
      | nil => exact .pure rfl
      | cons x xs =>
          apply (Expr.mul_builds b.expr x).bind
          intro term _
          refine (ih xs).bind fun rest hrest => .pure ?_
          rw [List.length_cons, List.length_cons, hrest]

theorem addSelected_builds (sums : List (Expr n)) (terms : List (BoolVar n × List (Expr n))) :
    Builds (addSelected sums terms : Builder n σ (List (Expr n)))
      fun zs => zs.length = sums.length := by
  induction terms generalizing sums with
  | nil => exact .pure rfl
  | cons term terms ih =>
      obtain ⟨b, xs⟩ := term
      refine (addEach_builds b sums xs).bind fun sums' hlength => ?_
      rw [← hlength]
      exact ih sums'

section

variable {T V : Type} [CircuitType n T V] [CircuitType.Lawful n T] {mask : List (BoolVar n)}
  {values : List T}

theorem switch_builds_of_sum (hlength : mask.length = values.length)
    (hvalues : values.isEmpty = false)
    (hsum : ∀ a, (Expr.sum (mask.map expr)).toConstant? = some a → a = 1) :
    Builds (switch mask values : Builder n σ T) fun _ => True := by
  unfold switch
  refine .guard (fun herror => ?_) ?_
  · simp [hlength, hvalues] at herror
  · refine (Expr.assertEqual_builds fun a b ha hb => ?_).bind fun _ _ => ?_
    · obtain rfl : (1 : Residue n) = b := Option.some.inj ((Expr.toConstant?_const 1).symm.trans hb)
      exact hsum a ha
    · refine (addSelected_builds _ _).bind fun zs hzs => ?_
      obtain ⟨z, hz, -⟩ := CircuitType.Lawful.exists_ofExprs? (T := T) zs _
        (hzs.trans (List.length_replicate ..))
      exact .orAbort hz trivial

theorem switch_builds (hlength : mask.length = values.length)
    (hopen : ∃ b ∈ mask, 0 < b.expr.occurrences) :
    Builds (switch mask values : Builder n σ T) fun _ => True := by
  obtain ⟨b, hb, hpos⟩ := hopen
  have hvalues : values.isEmpty = false := by
    cases values with
    | nil =>
        obtain rfl := List.length_eq_zero_iff.mp hlength
        cases hb
    | cons _ _ => rfl
  refine switch_builds_of_sum hlength hvalues fun a ha => ?_
  have hsum : 0 < (Expr.sum (mask.map expr)).occurrences := by
    rw [Expr.occurrences_sum, List.map_map]
    exact List.sum_pos_iff_exists_pos_nat.mpr ⟨_, List.mem_map_of_mem hb, hpos⟩
  rw [Expr.toConstant?_of_pos hsum] at ha
  cases ha

end

end BoolVar

namespace Expr

theorem assert64_builds (x : Expr n) : Builds (x.assert64 : Builder n σ Unit) fun _ => True := by
  unfold assert64
  split
  · exact .pure trivial
  · exact .assert _

theorem assertChunk_builds (x : Expr n) (bits : Nat) :
    Builds (x.assertChunk bits : Builder n σ Unit) fun _ => True := by
  apply (assert64_builds x).bind
  intro _ _
  split
  · exact assert64_builds _
  · exact .pure trivial

theorem assertWidth_builds (x : Expr n) {bits : Nat} (hbits : bits ≤ 128) :
    Builds (x.assertWidth bits : Builder n σ Unit) fun _ => True := by
  unfold assertWidth
  rw [if_neg (by omega)]
  split
  · exact assertChunk_builds x bits
  · refine compute_pair_builds.bind ?_
    rintro ⟨lo, hi⟩ ⟨hlo, -⟩
    refine (assertEqual_builds_of_pos ?_).bind fun _ _ => ?_
    · rw [occurrences_plus]
      simp only at hlo
      omega
    · exact (assert64_builds lo).bind fun _ _ => assertChunk_builds hi _

omit [Modulus n] in
theorem width_le_of_lt [PastaPrime n] {bound : Nat} (hbound : bound < 2 ^ 254) :
    Binary.width bound ≤ Binary.width n - 1 := by
  rw [PastaPrime.width_eq n, Nat.add_one_sub_one]
  exact (Binary.width_le_iff bound 254).mpr hbound

theorem assertAtMost_of_var [PastaPrime n] {x : Expr n} {bound : Nat} (hbound : bound < 2 ^ 254)
    (hx : x.toConstant? = none) :
    (x.assertAtMost bound : Builder n σ Unit) = x.assertAtMostVar bound := by
  simp only [assertAtMost, if_neg (width_le_of_lt hbound).not_gt, hx]

theorem assertAtMost_of_constant [PastaPrime n] {x : Expr n} {bound : Nat}
    (hbound : bound < 2 ^ 254) {a : Residue n} (hx : x.toConstant? = some a) :
    (x.assertAtMost bound : Builder n σ Unit) =
      if a.val ≤ bound then pure () else failSetup (.notAtMost a.val bound) := by
  simp only [assertAtMost, if_neg (width_le_of_lt hbound).not_gt, hx]

theorem assertAtMost_of_le [PastaPrime n] (x : Expr n) {bound : Nat} (hbound : 2 ^ 254 ≤ bound) :
    (x.assertAtMost bound : Builder n σ Unit) =
      failSetup (.bitLength (Binary.width bound) 254) := by
  simp only [assertAtMost, PastaPrime.width_eq, Nat.add_one_sub_one, Binary.lt_width_iff,
    if_pos hbound]

theorem assertAtMost_builds [PastaPrime n] {x : Expr n} (hx : 0 < x.occurrences) {bound : Nat}
    (hbound : bound < 2 ^ 254) :
    Builds (x.assertAtMost bound : Builder n σ Unit) fun _ => True := by
  have hwidth : Binary.width bound ≤ 254 := (Binary.width_le_iff bound 254).mpr hbound
  rw [assertAtMost_of_var hbound (toConstant?_of_pos hx)]
  refine compute_pair_builds.bind ?_
  rintro ⟨lo, hi⟩ ⟨hlo, -⟩
  apply (assertWidth_builds lo (by omega)).bind
  intro _ _
  apply (assertWidth_builds hi (by omega)).bind
  intro _ _
  apply (assertEqual_builds_of_pos (by omega)).bind
  intro _ _
  apply (assertWidth_builds _ (by omega)).bind
  intro _ _
  apply (isEqual_builds _ 0).bind
  intro tie _
  apply (BoolVar.choose_builds tie _ 0).bind
  intro gap _
  exact assertWidth_builds gap (by omega)

theorem halve_builds [PastaPrime n] (x : Expr n) :
    Builds (x.halve : Builder n σ (BoolVar n × Expr n)) fun r =>
      0 < r.1.expr.occurrences ∨ ∃ b, r.1 = .constant b := by
  unfold halve
  cases x.toConstant? with
  | some a => exact .pure (.inr ⟨_, rfl⟩)
  | none =>
      refine Builds.bind (P := fun r => 0 < r.1.expr.occurrences ∧ 0 < r.2.occurrences)
        (.compute fun r hr => ?_) ?_
      · refine (Builds.assert _).bind fun _ _ => .pure ⟨?_, ?_⟩
        · exact hr _ (by simp [CircuitType.toExprs])
        · exact hr _ (by simp [CircuitType.toExprs])
      · rintro ⟨parity, half⟩ ⟨hparity, hhalf⟩
        refine (assertEqual_builds_of_pos ?_).bind fun _ _ => ?_
        · rw [occurrences_plus]
          simp only at hparity
          omega
        · apply (assertAtMost_builds hhalf (PastaPrime.half_lt n)).bind
          intro _ _
          apply (isEqual_builds half _).bind
          intro extreme _
          exact (Builds.assert _).bind fun _ _ => .pure (.inl hparity)

end Expr

namespace PointVar

theorem wire_builds (P : PointVar n) :
    Builds (wire P : Builder n σ (PointVar n)) fun _ => True :=
  (Expr.wire_builds P.x).bind fun _ _ => (Expr.wire_builds P.y).bind fun _ _ => .pure trivial

theorem addVar_builds (P Q : PointVar n) :
    Builds (addVar P Q : Builder n σ (PointVar n × BoolVar n))
      fun r => 0 < r.2.expr.occurrences := by
  apply Builds.declare.bind
  intro cells hcells
  match cells, hcells with
  | [sameX, isInfinity, infinityInverse, differenceInverse, slope, x, y], ⟨_, hopen⟩ =>
      have hinfinity : 0 < isInfinity.occurrences := hopen _ (by simp)
      apply Builds.bind (.orAbort rfl rfl)
      intro gate hgate
      subst hgate
      refine (Expr.assertBool_builds fun a ha => ?_).bind fun b hb => ?_
      · rw [Expr.toConstant?_of_pos hinfinity] at ha
        cases ha
      · refine (wire_builds P).bind fun P' _ => (wire_builds Q).bind fun Q' _ => ?_
        refine (Builds.assert _).bind fun _ _ => .pure ?_
        rw [hb]
        exact hinfinity

theorem add_builds (P Q : PointVar n) :
    Builds (add P Q : Builder n σ (PointVar n × BoolVar n)) fun r =>
      CircuitType.constantValue? (n := n) P = none ∨
        CircuitType.constantValue? (n := n) Q = none → 0 < r.2.expr.occurrences := by
  simp only [add]
  cases CircuitType.constantValue? (n := n) P with
  | none => exact (addVar_builds P Q).mono fun _ h _ => h
  | some a =>
      cases CircuitType.constantValue? (n := n) Q with
      | none => exact (addVar_builds P Q).mono fun _ h _ => h
      | some c => exact .pure (by simp)

theorem constantValue?_of_pos {P : PointVar n} (hP : 0 < P.x.occurrences) :
    CircuitType.constantValue? (n := n) P = none := by
  simp [CircuitType.constantValue?, CircuitType.toExprs, Coordinates.toList,
    Expr.toConstant?_of_pos hP]

theorem constantValue?_neg {P : PointVar n} {A : Coordinates (Residue n)}
    (hP : CircuitType.constantValue? (n := n) P = some A) :
    CircuitType.constantValue? (n := n) (neg P) = some (-A) := by
  obtain ⟨hx, hy⟩ := CircuitType.constantValue?_point.mp hP
  exact CircuitType.constantValue?_point.mpr ⟨hx, Expr.toConstant?_neg hy⟩

theorem addFinite_builds {P : PointVar n} (Q : PointVar n) (hP : 0 < P.x.occurrences) :
    Builds (addFinite P Q : Builder n σ (PointVar n)) fun _ => True := by
  refine (add_builds P Q).bind ?_
  rintro ⟨R, isInfinity⟩ hopen
  refine (Expr.assertEqual_builds_of_pos ?_).bind fun _ _ => .pure trivial
  exact Nat.add_pos_left (hopen (.inl (constantValue?_of_pos hP))) _

theorem scaleUnpack_builds (base : PointVar n) (scalar : Expr n) (count : Nat) :
    Builds (scaleUnpack base scalar count : Builder n σ (PointVar n × List (Expr n)))
      fun r => 0 < r.1.x.occurrences ∧ ∀ bit ∈ r.2, 0 < bit.occurrences := by
  refine (wire_builds base).bind fun base' _ => (Expr.wire_builds scalar).bind fun scalar' _ => ?_
  apply Builds.declare.bind
  intro cells hcells
  match cells, hcells with
  | [], ⟨hlength, _⟩ => simp at hlength; omega
  | [_], ⟨hlength, _⟩ => simp at hlength; omega
  | x :: y :: bits, ⟨_, hopen⟩ =>
      apply Builds.bind (.orAbort rfl rfl)
      intro gate hgate
      subst hgate
      refine (Builds.assert _).bind fun _ _ => .pure ⟨hopen x (by simp), fun bit hbit => ?_⟩
      exact hopen bit (by simp [hbit])

end PointVar

end PallasCircuits
