import PallasCircuits.Gadget.CurveGroup
import PallasCircuits.Proofs.Composed

namespace PallasCircuits

variable {n : Nat} [Modulus n] {σ : Type} {k : Nat}

open Builder

namespace Expr

variable {x y z : Expr n}

theorem mulVar_composed (hx : x.Below k) (hy : y.Below k) :
    Composed k (mulVar x y : Builder n σ (Expr n)) fun j z => z.Below j := by
  unfold mulVar
  apply (Composed.compute (.bind (.value hx) fun _ _ => .bind (.value hy) fun _ _ =>
    .pure trivial)).bind
  intro j hj z hz
  refine (Composed.assert ?_).bind fun i hi _ _ => .pure fun _ _ => ?_
  · grind
  · grind

theorem mul_composed (hx : x.Below k) (hy : y.Below k) :
    Composed k (mul x y : Builder n σ (Expr n)) fun j z => z.Below j := by
  unfold mul
  split
  · exact .pure fun _ _ => trivial
  · exact .pure fun _ _ => by grind
  · exact .pure fun _ _ => by grind
  · exact mulVar_composed hx hy

theorem squareVar_composed (hx : x.Below k) :
    Composed k (squareVar x : Builder n σ (Expr n)) fun j z => z.Below j := by
  unfold squareVar
  apply (Composed.compute (.bind (.value hx) fun _ _ => .pure trivial)).bind
  intro j hj y hy
  refine (Composed.assert ?_).bind fun i hi _ _ => .pure fun _ _ => ?_
  · grind
  · grind

theorem square_composed (hx : x.Below k) :
    Composed k (square x : Builder n σ (Expr n)) fun j z => z.Below j := by
  unfold square
  split
  · exact .pure fun _ _ => trivial
  · exact squareVar_composed hx

theorem wireVar_composed (hx : x.Below k) :
    Composed k (wireVar x : Builder n σ (Expr n)) fun j z => z.Below j := by
  unfold wireVar
  apply (Composed.compute (.value hx)).bind
  intro j hj y hy
  refine (Composed.assert ?_).bind fun i hi _ _ => .pure fun _ _ => ?_
  · grind
  · grind

theorem wire_composed (hx : x.Below k) :
    Composed k (wire x : Builder n σ (Expr n)) fun j z => z.Below j := by
  unfold wire
  split
  · exact .pure fun _ _ => trivial
  · exact .pure fun _ _ => by grind
  · split
    · exact .pure fun _ _ => trivial
    · exact wireVar_composed hx

theorem isZeroVar_composed (hz : z.Below k) :
    Composed k (isZeroVar z : Builder n σ (BoolVar n)) fun j b => b.expr.Below j := by
  unfold isZeroVar
  refine (Composed.compute (.bind (.value hz) fun a _ => ?_)).bind fun j hj p hp => ?_
  · cases a.inv? with
    | none => exact .pure trivial
    | some inverse => exact .pure trivial
  · refine (Composed.assert ?_).bind fun i hi _ _ =>
      (Composed.assert ?_).bind fun l hl _ _ => .pure fun _ _ => ?_
    · grind
    · grind
    · grind

theorem isEqual_composed (hx : x.Below k) (hy : y.Below k) :
    Composed k (isEqual x y : Builder n σ (BoolVar n)) fun j b => b.expr.Below j := by
  simp only [isEqual]
  split
  · exact .pure fun _ _ => trivial
  · exact isZeroVar_composed (below_minus hx hy)

theorem assertEqual_composed (hx : x.Below k) (hy : y.Below k) :
    Composed k (assertEqual x y : Builder n σ Unit) fun _ _ => True := by
  unfold assertEqual
  split
  · split
    · exact .pure fun _ _ => trivial
    · exact .failSetup _
  · exact .assert ⟨hx, hy⟩

theorem assertBool_composed (hx : x.Below k) :
    Composed k (assertBool x : Builder n σ (BoolVar n)) fun j b => b.expr.Below j := by
  unfold assertBool
  split
  · split
    · exact .pure fun _ hj => hx.mono hj
    · exact .failSetup _
  · exact (Composed.assert (c := .boolean x) hx).bind fun j hj _ _ => .pure fun i hi => by grind

end Expr

namespace BoolVar

variable {b x y : BoolVar n}

@[grind ←] theorem below_not (hx : x.expr.Below k) : x.not.expr.Below k :=
  Expr.below_minus trivial hx

theorem and_composed (hx : x.expr.Below k) (hy : y.expr.Below k) :
    Composed k (x.and y : Builder n σ (BoolVar n)) fun j b => b.expr.Below j := by
  unfold BoolVar.and
  exact (Expr.mul_composed hx hy).bind fun j hj z hz => .pure fun i hi => hz.mono hi

theorem or_composed (hx : x.expr.Below k) (hy : y.expr.Below k) :
    Composed k (x.or y : Builder n σ (BoolVar n)) fun j b => b.expr.Below j := by
  unfold BoolVar.or
  apply (and_composed (below_not hx) (below_not hy)).bind
  intro j hj z hz
  exact .pure fun i hi => below_not (hz.mono hi)

theorem below_sum_map {xs : List (BoolVar n)} (h : ∀ x ∈ xs, x.expr.Below k) :
    (Expr.sum (xs.map expr)).Below k :=
  Expr.below_sum (List.forall_mem_map.mpr h)

theorem any_composed {xs : List (BoolVar n)} (h : ∀ x ∈ xs, x.expr.Below k) :
    Composed k (any xs : Builder n σ (BoolVar n)) fun j b => b.expr.Below j := by
  unfold any
  split
  · exact .pure fun _ _ => trivial
  · exact .pure fun _ _ => by grind
  · exact or_composed (by grind) (by grind)
  · apply (Expr.isEqual_composed (y := 0) (below_sum_map h) trivial).bind
    intro j hj z hz
    exact .pure fun i hi => below_not (hz.mono hi)

theorem all_composed {xs : List (BoolVar n)} (h : ∀ x ∈ xs, x.expr.Below k) :
    Composed k (all xs : Builder n σ (BoolVar n)) fun j b => b.expr.Below j := by
  unfold all
  split
  · exact .pure fun _ _ => trivial
  · exact .pure fun _ _ => by grind
  · exact and_composed (by grind) (by grind)
  · exact Expr.isEqual_composed (below_sum_map h) trivial

theorem xorVar_composed (hx : x.expr.Below k) (hy : y.expr.Below k) :
    Composed k (xorVar x y : Builder n σ (BoolVar n)) fun j b => b.expr.Below j := by
  unfold xorVar
  apply (Composed.computeUnchecked (.bind (.read_bool hx) fun _ _ =>
    .bind (.read_bool hy) fun _ _ => .pure trivial)).bind
  intro j hj z hz
  refine (Composed.assert ?_).bind fun i hi _ _ => .pure fun _ _ => ?_
  · grind
  · grind

theorem xor_composed (hx : x.expr.Below k) (hy : y.expr.Below k) :
    Composed k (x.xor y : Builder n σ (BoolVar n)) fun j b => b.expr.Below j := by
  unfold BoolVar.xor
  split
  · exact .pure fun j hj => below_not (hy.mono hj)
  · exact .pure fun j hj => below_not (hx.mono hj)
  · exact .pure fun j hj => hy.mono hj
  · exact .pure fun j hj => hx.mono hj
  · exact xorVar_composed hx hy

theorem assertTrue_composed (hx : x.expr.Below k) :
    Composed k (x.assertTrue : Builder n σ Unit) fun _ _ => True :=
  Expr.assertEqual_composed hx trivial

theorem assertFalse_composed (hx : x.expr.Below k) :
    Composed k (x.assertFalse : Builder n σ Unit) fun _ _ => True :=
  Expr.assertEqual_composed hx trivial

theorem chooseVar_composed {x y : Expr n} (hb : b.expr.Below k) (hx : x.Below k)
    (hy : y.Below k) :
    Composed k (b.chooseVar x y : Builder n σ (Expr n)) fun j z => z.Below j := by
  unfold chooseVar
  refine (Composed.compute (.bind (.value hb) fun a _ => ?_)).bind fun j hj z hz => ?_
  · split
    · exact .value hx
    · exact .value hy
  · refine (Composed.assert ?_).bind fun i hi _ _ => .pure fun _ _ => ?_
    · grind
    · grind

theorem choose_composed {x y : Expr n} (hb : b.expr.Below k) (hx : x.Below k)
    (hy : y.Below k) :
    Composed k (b.choose x y : Builder n σ (Expr n)) fun j z => z.Below j := by
  unfold choose
  split
  · exact .pure fun j hj => by grind
  · split
    · exact .pure fun j hj => by grind
    · exact chooseVar_composed hb hx hy

theorem chooseEach_composed {xs ys : List (Expr n)} (hb : b.expr.Below k)
    (hxs : ∀ x ∈ xs, x.Below k) (hys : ∀ y ∈ ys, y.Below k) (hlength : xs.length = ys.length) :
    Composed k (b.chooseEach xs ys : Builder n σ (List (Expr n)))
      fun j zs => zs.length = xs.length ∧ ∀ z ∈ zs, z.Below j := by
  induction xs generalizing ys k with
  | nil => exact .pure fun _ _ => by simp
  | cons x xs ih =>
      cases ys with
      | nil => cases hlength
      | cons y ys =>
          simp only [List.forall_mem_cons] at hxs hys
          simp only [List.length_cons, Nat.add_right_cancel_iff] at hlength
          unfold chooseEach
          apply (choose_composed hb hxs.1 hys.1).bind
          intro j hj z hz
          apply (ih (hb.mono hj) (fun e he => (hxs.2 e he).mono hj)
            (fun e he => (hys.2 e he).mono hj) hlength).bind
          rintro i hi zs ⟨hzs, hbelow⟩
          refine .pure fun l hl => ⟨by simp [hzs], List.forall_mem_cons.mpr ⟨?_, ?_⟩⟩
          · exact hz.mono (Nat.le_trans hi hl)
          · exact fun e he => (hbelow e he).mono hl

section

variable {T V : Type} [CircuitType n T V] [CircuitType.Lawful n T]

open CircuitType in
theorem orAbort_ofExprs?_composed {xs : List (Expr n)} {a : Aux n T}
    (hlength : xs.length = size n T) (h : ∀ x ∈ xs, x.Below k) :
    Composed k (orAbort (ofExprs? xs a) : Builder n σ T) fun j x => InScope (n := n) j x := by
  obtain ⟨x, hx, hexprs, -⟩ := Lawful.exists_ofExprs? (T := T) xs a hlength
  refine .orAbort hx fun j hj e he => ?_
  rw [hexprs] at he
  exact (h e he).mono hj

theorem select_composed {x y : T} (hb : b.expr.Below k) (hx : InScope (n := n) k x)
    (hy : InScope (n := n) k y) :
    Composed k (b.select x y : Builder n σ T) fun j z => InScope (n := n) j z := by
  have hlength := CircuitType.Lawful.length_toExprs (n := n) (T := T)
  unfold select
  refine (chooseEach_composed hb hx hy ?_).bind fun j hj zs ⟨hzs, hbelow⟩ => ?_
  · rw [hlength, hlength]
  · exact orAbort_ofExprs?_composed (hzs.trans (hlength x)) hbelow

omit [CircuitType n T V] [CircuitType.Lawful n T] in
theorem addEach_composed {sums xs : List (Expr n)} (hb : b.expr.Below k)
    (hsums : ∀ x ∈ sums, x.Below k) (hxs : ∀ x ∈ xs, x.Below k) :
    Composed k (b.addEach sums xs : Builder n σ (List (Expr n)))
      fun j zs => zs.length = sums.length ∧ ∀ z ∈ zs, z.Below j := by
  induction sums generalizing xs k with
  | nil => exact .pure fun _ _ => by simp
  | cons sum sums ih =>
      cases xs with
      | nil => exact .pure fun j hj => ⟨rfl, fun e he => (hsums e he).mono hj⟩
      | cons x xs =>
          simp only [List.forall_mem_cons] at hsums hxs
          unfold addEach
          apply (Expr.mul_composed hb hxs.1).bind
          intro j hj z hz
          apply (ih (hb.mono hj) (fun e he => (hsums.2 e he).mono hj)
            fun e he => (hxs.2 e he).mono hj).bind
          rintro i hi zs ⟨hzs, hbelow⟩
          refine .pure fun l hl => ⟨by simp [hzs], List.forall_mem_cons.mpr ⟨?_, ?_⟩⟩
          · grind
          · exact fun e he => (hbelow e he).mono hl

omit [CircuitType n T V] [CircuitType.Lawful n T] in
theorem addSelected_composed {sums : List (Expr n)} {rows : List (BoolVar n × List (Expr n))}
    (hsums : ∀ x ∈ sums, x.Below k)
    (hrows : ∀ row ∈ rows, row.1.expr.Below k ∧ ∀ x ∈ row.2, x.Below k) :
    Composed k (addSelected sums rows : Builder n σ (List (Expr n)))
      fun j zs => zs.length = sums.length ∧ ∀ z ∈ zs, z.Below j := by
  induction rows generalizing sums k with
  | nil => exact .pure fun j hj => ⟨rfl, fun e he => (hsums e he).mono hj⟩
  | cons row rows ih =>
      obtain ⟨⟨hb, hxs⟩, hrest⟩ := List.forall_mem_cons.mp hrows
      obtain ⟨b, xs⟩ := row
      apply (addEach_composed hb hsums hxs).bind
      intro j hj zs ⟨hzs, hbelow⟩
      refine (ih hbelow fun r hr => ?_).mono fun i _ ws hws => ⟨hws.1.trans hzs, hws.2⟩
      exact ⟨(hrest r hr).1.mono hj, fun x hx => ((hrest r hr).2 x hx).mono hj⟩

theorem switch_composed {mask : List (BoolVar n)} {values : List T}
    (hmask : ∀ b ∈ mask, b.expr.Below k) (hvalues : ∀ x ∈ values, InScope (n := n) k x) :
    Composed k (switch mask values : Builder n σ T) fun j z => InScope (n := n) j z := by
  unfold switch
  refine .guard (fun _ => .failSetup _) fun j hj => ?_
  apply (Expr.assertEqual_composed (y := 1) (below_sum_map fun b hb => (hmask b hb).mono hj)
    trivial).bind
  intro i hi _ _
  refine (addSelected_composed ?_ ?_).bind fun l hl zs ⟨hzs, hbelow⟩ => ?_
  · exact fun x hx => (List.eq_of_mem_replicate hx) ▸ trivial
  · intro row hrow
    obtain ⟨hb, hx⟩ := List.of_mem_zip hrow
    obtain ⟨x, hx, hexprs⟩ := List.mem_map.mp hx
    refine ⟨(hmask _ hb).mono (Nat.le_trans hj hi), fun e he => ?_⟩
    rw [← hexprs] at he
    exact (hvalues x hx e he).mono (Nat.le_trans hj hi)
  · exact orAbort_ofExprs?_composed (by rw [hzs, List.length_replicate]) hbelow

end

end BoolVar

namespace Expr

variable {x : Expr n}

theorem assert64_composed (hx : x.Below k) :
    Composed k (assert64 x : Builder n σ Unit) fun _ _ => True := by
  unfold assert64
  split
  · exact .pure fun _ _ => trivial
  · exact .assert hx

theorem assertChunk_composed (bits : Nat) (hx : x.Below k) :
    Composed k (assertChunk x bits : Builder n σ Unit) fun _ _ => True := by
  unfold assertChunk
  apply (assert64_composed hx).bind
  intro j hj _ _
  split
  · exact assert64_composed (below_smul (hx.mono hj))
  · exact .pure fun _ _ => trivial

theorem assertWidth_composed (bits : Nat) (hx : x.Below k) :
    Composed k (assertWidth x bits : Builder n σ Unit) fun _ _ => True := by
  unfold assertWidth
  split
  · exact .failSetup _
  · split
    · exact assertChunk_composed bits hx
    · apply (Composed.compute (.bind (.value hx) fun _ _ => .pure trivial)).bind
      intro j hj p hp
      obtain ⟨hlo, hhi⟩ := (inScope_pair _ _).mp hp
      apply (assertEqual_composed (hx.mono hj) (by grind)).bind
      intro i hi _ _
      apply (assert64_composed (by grind)).bind
      intro l hl _ _
      exact assertChunk_composed _ (by grind)

theorem assertAtMostVar_composed (bound : Nat) (hx : x.Below k) :
    Composed k (assertAtMostVar x bound : Builder n σ Unit) fun _ _ => True := by
  unfold assertAtMostVar
  apply (Composed.compute (.bind (.value hx) fun _ _ => .pure trivial)).bind
  intro j₁ h₁ p hp
  obtain ⟨hlo, hhi⟩ := (inScope_pair _ _).mp hp
  apply (assertWidth_composed 128 (by grind)).bind
  intro j₂ h₂ _ _
  apply (assertWidth_composed _ (by grind)).bind
  intro j₃ h₃ _ _
  apply (assertEqual_composed (by grind) (by grind)).bind
  intro j₄ h₄ _ _
  apply (assertWidth_composed _ (by grind)).bind
  intro j₅ h₅ _ _
  apply (isEqual_composed (by grind) (by grind)).bind
  intro j₆ h₆ tie htie
  apply (BoolVar.choose_composed htie (by grind) (by grind)).bind
  intro j₇ h₇ gap hgap
  exact assertWidth_composed 128 hgap

theorem assertAtMost_composed (bound : Nat) (hx : x.Below k) :
    Composed k (assertAtMost x bound : Builder n σ Unit) fun _ _ => True := by
  simp only [assertAtMost]
  split
  · exact .failSetup _
  · split
    · split
      · exact .pure fun _ _ => trivial
      · exact .failSetup _
    · exact assertAtMostVar_composed bound hx

theorem halveVar_composed (hx : x.Below k) :
    Composed k (halveVar x : Builder n σ (BoolVar n × Expr n))
      fun j p => p.1.expr.Below j ∧ p.2.Below j := by
  unfold halveVar
  apply (Composed.compute (.bind (.value hx) fun _ _ => .pure trivial)).bind
  intro j₁ h₁ p hp
  obtain ⟨hparity, hhalf⟩ := (inScope_pair _ _).mp hp
  apply (assertEqual_composed (by grind) (by grind)).bind
  intro j₂ h₂ _ _
  apply (assertAtMost_composed _ (by grind)).bind
  intro j₃ h₃ _ _
  apply (isEqual_composed (by grind) (by grind)).bind
  intro j₄ h₄ extreme hextreme
  refine (Composed.assert (by grind)).bind fun j₅ h₅ _ _ => .pure fun _ _ => ?_
  grind

theorem halve_composed (hx : x.Below k) :
    Composed k (halve x : Builder n σ (BoolVar n × Expr n))
      fun j p => p.1.expr.Below j ∧ p.2.Below j := by
  unfold halve
  split
  · exact .pure fun _ _ => ⟨trivial, trivial⟩
  · exact halveVar_composed hx

end Expr

namespace Limbs

variable {x a b : Limbs (Expr n)}

theorem below_constant (v : Nat) : (constant v : Limbs (Expr n)).Below k :=
  ⟨trivial, trivial, trivial⟩

theorem answers_values (hx : x.Below k) : Answers k x.values fun _ => True :=
  .bind (.value hx.1) fun _ _ => .bind (.value hx.2.1) fun _ _ => .bind (.value hx.2.2)
    fun _ _ => .pure trivial

theorem assertRange_composed (hx : x.Below k) :
    Composed k (assertRange x : Builder n σ Unit) fun _ _ => True := by
  unfold assertRange
  split
  · exact .pure fun _ _ => trivial
  · exact .assert hx

instance : CircuitType.Composable n (Limbs (Expr n)) where
  check_composed h := assertRange_composed ((inScope_limbs _ _).mp h)
  check_congr {_ x y} h := by
    cases x
    cases y
    cases h
    rfl

theorem assertCarry_composed {x : Expr n} (hx : x.Below k) :
    Composed k (assertCarry x : Builder n σ Unit) fun _ _ => True := by
  unfold assertCarry
  apply (Expr.square_composed hx).bind
  intro j hj y hy
  apply (Expr.mul_composed hy (hx.mono hj)).bind
  intro i hi z hz
  exact Expr.assertEqual_composed (by grind) hz

theorem subVar_composed (modulus : Nat) (ha : a.Below k) (hb : b.Below k) :
    Composed k (subVar a b modulus : Builder n σ (Limbs (Expr n))) fun j z => z.Below j := by
  unfold subVar
  apply (Composed.compute (.bind (answers_values ha) fun _ _ =>
    .bind (answers_values hb) fun _ _ => .pure trivial)).bind
  intro j₁ h₁ p hp
  obtain ⟨borrow, ⟨lo, mid, hi⟩, carryLo, carryMid⟩ := p
  simp only [inScope_pair, inScope_bool, inScope_expr] at hp
  obtain ⟨hborrow, ⟨hlo, hmid, hhi⟩, hcarryLo, hcarryMid⟩ := hp
  apply (assertCarry_composed hcarryLo).bind
  intro j₂ h₂ _ _
  apply (assertCarry_composed (by grind)).bind
  intro j₃ h₃ _ _
  apply (Expr.assertEqual_composed (by grind) (by grind)).bind
  intro j₄ h₄ _ _
  apply (Expr.assertEqual_composed (by grind) (by grind)).bind
  intro j₅ h₅ _ _
  apply (Expr.assertEqual_composed (by grind) (by grind)).bind
  intro j₆ h₆ _ _
  refine (assertRange_composed (by grind)).bind fun j₇ h₇ _ _ => .pure fun _ _ => ?_
  grind

theorem sub_composed (modulus : Nat) (ha : a.Below k) (hb : b.Below k) :
    Composed k (sub a b modulus : Builder n σ (Limbs (Expr n))) fun j z => z.Below j := by
  unfold sub
  split
  · exact .failSetup _
  · split
    · split
      · exact .throw _
      · exact .pure fun _ _ => below_constant _
    · exact subVar_composed modulus ha hb

theorem assertLessVar_composed (bound : Nat) (hx : x.Below k) :
    Composed k (assertLessVar x bound : Builder n σ Unit) fun _ _ => True := by
  simp only [assertLessVar]
  apply (Composed.compute (.bind (answers_values hx) fun _ _ => .pure trivial)).bind
  intro j₁ h₁ p hp
  obtain ⟨carryLo, carryMid, lo, mid, hi⟩ := p
  simp only [inScope_pair, inScope_bool, inScope_expr] at hp
  obtain ⟨hcarryLo, hcarryMid, hlo, hmid, hhi⟩ := hp
  have hgap := below_constant (n := n) (k := k) (Binary.twoPow bits - bound)
  unfold constant at hgap
  generalize (ofNat (Binary.twoPow bits - bound)).map _ = gap at hgap ⊢
  apply (Expr.assertEqual_composed (by grind) (by grind)).bind
  intro j₂ h₂ _ _
  apply (Expr.assertEqual_composed (by grind) (by grind)).bind
  intro j₃ h₃ _ _
  apply (Expr.assertEqual_composed (by grind) (by grind)).bind
  intro j₄ h₄ _ _
  exact assertRange_composed (by grind)

theorem assertLess_composed (bound : Nat) (hx : x.Below k) :
    Composed k (assertLess x bound : Builder n σ Unit) fun _ _ => True := by
  unfold assertLess
  split
  · exact .failSetup _
  · split
    · split
      · exact .pure fun _ _ => trivial
      · exact .failSetup _
    · exact assertLessVar_composed bound hx

end Limbs

namespace PointVar

variable {P Q : PointVar n}

omit [Modulus n] in
theorem below_constant (a : Coordinates (Residue n)) : (constant a).Below k :=
  ⟨trivial, trivial⟩

theorem below_zero : (zero : PointVar n).Below k :=
  below_constant 0

theorem below_neg (hP : P.Below k) : (neg P).Below k :=
  ⟨hP.1, Expr.below_neg hP.2⟩

theorem wire_composed (hP : P.Below k) :
    Composed k (wire P : Builder n σ (PointVar n)) fun j Q => Q.Below j := by
  unfold wire
  apply (Expr.wire_composed hP.1).bind
  intro j hj x hx
  refine (Expr.wire_composed (hP.2.mono hj)).bind fun i hi y hy => .pure fun l hl => ?_
  exact ⟨hx.mono (Nat.le_trans hi hl), hy.mono hl⟩

theorem addVar_composed (hP : P.Below k) (hQ : Q.Below k) :
    Composed k (addVar P Q : Builder n σ (PointVar n × BoolVar n))
      fun j r => r.1.Below j ∧ r.2.expr.Below j := by
  unfold addVar
  refine (Composed.declare (.bind (.read_point hP.1 hP.2) fun a _ =>
    .bind (.read_point hQ.1 hQ.2) fun b _ => .pure ?_)).bind fun j₁ h₁ cells hcells => ?_
  · rfl
  obtain ⟨hlength, hcells⟩ := hcells
  match cells, hlength with
  | [sameX, isInfinity, infinityInverse, differenceInverse, slope, x, y], _ =>
      apply (Composed.orAbort (P := fun _ gate =>
        gate = ⟨P, Q, ⟨x, y⟩, isInfinity, sameX, slope, infinityInverse, differenceInverse⟩)
        rfl fun _ _ => rfl).bind
      intro j₂ h₂ gate hgate
      subst hgate
      simp only [List.forall_mem_cons] at hcells
      obtain ⟨hsame, hinf, hinfz, hdiff, hslope, hx, hy, -⟩ := hcells
      apply (Expr.assertBool_composed (by grind)).bind
      intro j₃ h₃ flag hflag
      apply (wire_composed (by grind)).bind
      intro j₄ h₄ P' hP'
      apply (wire_composed (by grind)).bind
      intro j₅ h₅ Q' hQ'
      refine (Composed.assert ?_).bind fun j₆ h₆ _ _ => .pure fun _ _ => ?_
      · simp only [Constraint.Below, AdditionGate.chosen, List.forall_mem_cons]
        grind
      · grind

theorem add_composed (hP : P.Below k) (hQ : Q.Below k) :
    Composed k (add P Q : Builder n σ (PointVar n × BoolVar n))
      fun j r => r.1.Below j ∧ r.2.expr.Below j := by
  unfold add
  split
  · exact .pure fun _ _ => ⟨⟨trivial, trivial⟩, trivial⟩
  · exact addVar_composed hP hQ

theorem addFinite_composed (hP : P.Below k) (hQ : Q.Below k) :
    Composed k (addFinite P Q : Builder n σ (PointVar n)) fun j R => R.Below j := by
  unfold addFinite
  apply (add_composed hP hQ).bind
  intro j hj r hr
  refine (BoolVar.assertFalse_composed hr.2).bind fun i hi _ _ => .pure fun l hl => ?_
  exact ⟨by grind, by grind⟩

theorem scaleUnpack_composed {scalar : Expr n} (count : Nat) (hP : P.Below k)
    (hscalar : scalar.Below k) :
    Composed k (scaleUnpack P scalar count : Builder n σ (PointVar n × List (Expr n)))
      fun j r => r.1.Below j ∧ ∀ x ∈ r.2, x.Below j := by
  unfold scaleUnpack
  apply (wire_composed hP).bind
  intro j₁ h₁ base hbase
  apply (Expr.wire_composed (hscalar.mono h₁)).bind
  intro j₂ h₂ s hs
  refine (Composed.declare (.bind (.read_point (by grind) (by grind)) fun a _ =>
    .bind (.value hs) fun b _ => .pure ?_)).bind fun j₃ h₃ cells hcells => ?_
  · rw [ScalingGate.length_chosen, Nat.add_comm]
  · obtain ⟨hlength, hcells⟩ := hcells
    match cells, hlength with
    | [], h => simp only [List.length_nil] at h; omega
    | [_], h => simp only [List.length_singleton] at h; omega
    | x :: y :: bits, _ =>
        apply (Composed.orAbort (P := fun _ gate => gate = ⟨base, s, bits, ⟨x, y⟩⟩)
          rfl fun _ _ => rfl).bind
        intro j₄ h₄ gate hgate
        subst hgate
        simp only [List.forall_mem_cons] at hcells
        obtain ⟨hx, hy, hbits⟩ := hcells
        refine (Composed.assert ?_).bind fun j₅ h₅ _ _ => .pure fun _ _ => ?_
        · grind
        · grind

end PointVar

/-! ### Over the base field of Pallas -/

namespace ScalarVar

variable {s : Expr Pasta.p}

instance : CircuitType.Composable Pasta.p ScalarVar where
  check_composed h := .assert (c := .boolean _) ((inScope_scalar _ _).mp h).1
  check_congr {_ t u} h := by
    obtain ⟨⟨lo⟩, hi⟩ := t
    obtain ⟨⟨lo'⟩, hi'⟩ := u
    cases h
    rfl

theorem ofExprParts_composed (hs : s.Below k) :
    Composed k (ofExprParts s : Builder Pasta.p σ _)
      fun j r => r.1.expr.Below j ∧ r.2.1.Below j ∧ InScope (n := Pasta.p) j r.2.2 := by
  unfold ofExprParts
  apply (Expr.halve_composed hs).bind
  intro j₁ h₁ p hp
  apply (Expr.wire_composed (by grind)).bind
  intro j₂ h₂ carry hcarry
  apply (Expr.assertBool_composed (by grind)).bind
  intro j₃ h₃ lo hlo
  refine (Expr.wire_composed (by grind)).bind fun j₄ h₄ hi hhi => .pure fun _ _ => ?_
  grind

theorem ofExpr_composed (hs : s.Below k) :
    Composed k (ofExpr s : Builder Pasta.p σ ScalarVar) fun j t => InScope (n := Pasta.p) j t := by
  unfold ofExpr
  split
  · exact .pure fun _ _ => (inScope_scalar _ _).mpr ⟨trivial, trivial⟩
  · refine (ofExprParts_composed hs).bind fun j hj r hr => .pure fun i hi => ?_
    grind

theorem ofLimbsVar_composed {s : Limbs (Expr Pasta.p)} (hs : s.Below k) :
    Composed k (ofLimbsVar s : Builder Pasta.p σ ScalarVar)
      fun j t => InScope (n := Pasta.p) j t := by
  unfold ofLimbsVar
  apply (Limbs.assertLess_composed Pasta.q hs).bind
  intro j₁ h₁ _ _
  apply (Limbs.sub_composed Pasta.q (by grind) (Limbs.below_constant _)).bind
  intro j₂ h₂ t ht
  apply (Limbs.assertLess_composed Pasta.q ht).bind
  intro j₃ h₃ _ _
  apply (Composed.compute (.bind (.value (by grind)) fun _ _ => .pure trivial)).bind
  intro j₄ h₄ p hp
  obtain ⟨lo, mid, hi⟩ := p
  simp only [inScope_pair, inScope_bool, inScope_expr] at hp
  apply (Expr.assert64_composed (by grind)).bind
  intro j₅ h₅ _ _
  apply (Expr.assertWidth_composed _ (by grind)).bind
  intro j₆ h₆ _ _
  apply (Expr.assertEqual_composed (by grind) (by grind)).bind
  intro j₇ h₇ _ _
  refine (Expr.wire_composed (by grind)).bind fun j₈ h₈ half hhalf => .pure fun _ _ => ?_
  grind

theorem ofLimbs_composed {s : Limbs (Expr Pasta.p)} (hs : s.Below k) :
    Composed k (ofLimbs s : Builder Pasta.p σ ScalarVar)
      fun j t => InScope (n := Pasta.p) j t := by
  unfold ofLimbs
  split
  · split
    · exact .pure fun _ _ => (inScope_scalar _ _).mpr ⟨trivial, trivial⟩
    · exact .failSetup _
  · exact ofLimbsVar_composed hs

end ScalarVar

namespace PointVar

variable {P : PointVar Pasta.p} {s : Expr Pasta.p} {t : ScalarVar}

theorem assertZeros_composed {xs : List (Expr Pasta.p)} (h : ∀ x ∈ xs, x.Below k) :
    Composed k (assertZeros xs : Builder Pasta.p σ Unit) fun _ _ => True :=
  .forM fun _ hj x hx => Expr.assertEqual_composed ((h x hx).mono hj) trivial

theorem scaleVar_composed (hP : P.Below k) (hs : s.Below k) :
    Composed k (scaleVar P s : Builder Pasta.p σ (PointVar Pasta.p)) fun j R => R.Below j := by
  unfold scaleVar
  apply (ScalarVar.ofExprParts_composed hs).bind
  intro j₁ h₁ r hr
  obtain ⟨parity, half, t⟩ := r
  obtain ⟨hparity, hhalf, ht⟩ := hr
  obtain ⟨hlo, hhi⟩ := (inScope_scalar _ _).mp ht
  apply (Expr.isEqual_composed hhalf (by grind)).bind
  intro j₂ h₂ degenerate hdegenerate
  apply (BoolVar.choose_composed hdegenerate (by grind) (by grind)).bind
  intro j₃ h₃ hi hhi
  apply (scaleUnpack_composed 255 (by grind) hhi).bind
  intro j₄ h₄ r hr
  obtain ⟨R, bits⟩ := r
  obtain ⟨hR, hbits⟩ := hr
  apply (assertZeros_composed fun x hx => hbits x (List.mem_of_mem_drop hx)).bind
  intro j₅ h₅ _ _
  apply (addFinite_composed (by grind) (below_neg (by grind))).bind
  intro j₆ h₆ R' hR'
  apply (BoolVar.select_composed (by grind) (by grind) (by grind)).bind
  intro j₇ h₇ S hS
  apply (BoolVar.select_composed (by grind) (by grind)
    ((inScope_coordinates _ _).mpr below_zero)).bind
  intro j₈ h₈ small hsmall
  refine (BoolVar.select_composed (by grind) hsmall (by grind)).mono fun _ _ _ h => ?_
  exact (inScope_coordinates _ _).mp h

theorem scale_composed (hP : P.Below k) (hs : s.Below k) :
    Composed k (scale P s : Builder Pasta.p σ (PointVar Pasta.p)) fun j R => R.Below j := by
  unfold scale
  split
  · exact .pure fun _ _ => ⟨trivial, trivial⟩
  · exact scaleVar_composed hP hs

theorem scaleShiftedVar_composed (count : Nat) (hP : P.Below k)
    (ht : InScope (n := Pasta.p) k t) :
    Composed k (scaleShiftedVar P t count : Builder Pasta.p σ (PointVar Pasta.p))
      fun j R => R.Below j := by
  obtain ⟨hlo, hhi⟩ := (inScope_scalar _ _).mp ht
  simp only [scaleShiftedVar]
  apply (Expr.isEqual_composed hhi (by grind)).bind
  intro j₁ h₁ isOne hone
  apply (Expr.isEqual_composed (by grind) (by grind)).bind
  intro j₂ h₂ isMinusOne hminus
  apply (BoolVar.or_composed (by grind) hminus).bind
  intro j₃ h₃ degenerate hdegenerate
  refine .guard (fun _ => BoolVar.assertFalse_composed hdegenerate) fun j₄ h₄ => ?_
  apply (BoolVar.choose_composed (by grind) (by grind) (by grind)).bind
  intro j₅ h₅ hi hhi
  apply (scaleUnpack_composed 255 (by grind) hhi).bind
  intro j₆ h₆ r hr
  obtain ⟨R, bits⟩ := r
  obtain ⟨hR, hbits⟩ := hr
  apply (assertZeros_composed fun x hx => hbits x (List.mem_of_mem_drop hx)).bind
  intro j₇ h₇ _ _
  apply (Expr.mul_composed (by grind) (by grind)).bind
  intro j₈ h₈ y hy
  have hP₈ := hP.mono (show k ≤ j₈ by omega)
  apply (BoolVar.select_composed (by grind) (by grind) (by grind)).bind
  intro j₉ h₉ S hS
  apply (add_composed (by grind) (below_neg (by grind))).bind
  intro j₁₀ h₁₀ r hr
  apply (BoolVar.select_composed hr.2 ((inScope_coordinates _ _).mpr below_zero)
    (by grind)).bind
  intro j₁₁ h₁₁ S' hS'
  have hlo₁₁ := hlo.mono (show k ≤ j₁₁ by omega)
  refine (BoolVar.select_composed (by grind) (by grind) hS').mono fun _ _ _ h => ?_
  exact (inScope_coordinates _ _).mp h

theorem scaleShifted_composed (count : Nat) (hP : P.Below k) (ht : InScope (n := Pasta.p) k t) :
    Composed k (scaleShifted P t count : Builder Pasta.p σ (PointVar Pasta.p))
      fun j R => R.Below j := by
  unfold scaleShifted
  split
  · exact .failSetup _
  · split
    · exact .pure fun _ _ => below_constant _
    · exact scaleShiftedVar_composed count hP ht

end PointVar

namespace GroupVar

variable {g h : GroupVar}

theorem below_constant (a : Pallas) : (constant a).point.Below k :=
  PointVar.below_constant _

theorem below_neg (hg : g.point.Below k) : g.neg.point.Below k :=
  PointVar.below_neg hg

theorem isZero_composed (hg : g.point.Below k) :
    Composed k (isZero g : Builder Pasta.p σ (BoolVar Pasta.p)) fun j b => b.expr.Below j := by
  unfold isZero
  apply (Expr.isEqual_composed hg.1 (by grind)).bind
  intro j₁ h₁ x hx
  apply (Expr.isEqual_composed (by grind) (by grind)).bind
  intro j₂ h₂ y hy
  exact BoolVar.and_composed (by grind) hy

theorem assertOnCurve_composed (hg : g.point.Below k) :
    Composed k (assertOnCurve g : Builder Pasta.p σ Unit) fun _ _ => True := by
  unfold assertOnCurve
  apply (isZero_composed hg).bind
  intro j₁ h₁ zero hzero
  apply (Expr.square_composed (by grind)).bind
  intro j₂ h₂ xx hxx
  apply (Expr.mul_composed hxx (by grind)).bind
  intro j₃ h₃ xxx hxxx
  apply (Expr.square_composed (by grind)).bind
  intro j₄ h₄ yy hyy
  exact .assert (by grind)

instance : CircuitType.Composable Pasta.p GroupVar where
  check_composed h := assertOnCurve_composed ((inScope_group _ _).mp h)
  check_congr {_ g h} hexprs := by
    obtain ⟨⟨x, y⟩⟩ := g
    obtain ⟨⟨x', y'⟩⟩ := h
    cases hexprs
    rfl

theorem addVar_composed (hg : g.point.Below k) (hh : h.point.Below k) :
    Composed k (addVar g h : Builder Pasta.p σ GroupVar) fun j r => r.point.Below j := by
  unfold addVar
  apply (PointVar.add_composed hg hh).bind
  intro j₁ h₁ r hr
  obtain ⟨sum, isInfinity⟩ := r
  apply (isZero_composed (by grind)).bind
  intro j₂ h₂ gZero hgZero
  apply (isZero_composed (by grind)).bind
  intro j₃ h₃ hZero hhZero
  apply (BoolVar.and_composed (by grind) hhZero).bind
  intro j₄ h₄ bothZero hboth
  apply (BoolVar.and_composed (by grind) (by grind)).bind
  intro j₅ h₅ onlyG honlyG
  apply (BoolVar.and_composed (by grind) (by grind)).bind
  intro j₆ h₆ onlyH honlyH
  refine (BoolVar.any_composed ?_).bind fun j₇ h₇ special hspecial => ?_
  · simp only [List.forall_mem_cons]
    grind
  · refine (BoolVar.switch_composed ?_ ?_).mono fun _ _ _ hr => (inScope_group _ _).mp hr
    · simp only [List.forall_mem_cons]
      grind
    · simp only [List.forall_mem_cons, inScope_group]
      have hzero := fun j => below_constant (k := j) 0
      unfold zero
      grind

theorem add_composed (hg : g.point.Below k) (hh : h.point.Below k) :
    Composed k (add g h : Builder Pasta.p σ GroupVar) fun j r => r.point.Below j := by
  unfold add
  split
  · exact .pure fun _ _ => below_constant _
  · exact addVar_composed hg hh

theorem sub_composed (hg : g.point.Below k) (hh : h.point.Below k) :
    Composed k (sub g h : Builder Pasta.p σ GroupVar) fun j r => r.point.Below j :=
  add_composed hg (below_neg hh)

theorem scaleWith_composed {multiple : PointVar Pasta.p → Builder Pasta.p σ (PointVar Pasta.p)}
    (hg : g.point.Below k)
    (hmultiple : ∀ j ≥ k, ∀ P : PointVar Pasta.p, P.Below j →
      Composed j (multiple P) fun i R => R.Below i) :
    Composed k (scaleWith g multiple) fun j r => r.point.Below j := by
  unfold scaleWith
  apply (isZero_composed hg).bind
  intro j₁ h₁ zero hzero
  apply (BoolVar.select_composed hzero ((inScope_group _ _).mpr (below_constant _))
    (by grind)).bind
  intro j₂ h₂ base hbase
  apply (hmultiple j₂ (Nat.le_trans h₁ h₂) _ ((inScope_group _ _).mp hbase)).bind
  intro j₃ h₃ R hR
  refine (BoolVar.select_composed (by grind) ((inScope_group _ _).mpr (below_constant _))
    ((inScope_group _ _).mpr hR)).mono fun _ _ _ hr => (inScope_group _ _).mp hr

theorem scale_composed {s : Expr Pasta.p} (hg : g.point.Below k) (hs : s.Below k) :
    Composed k (scale g s : Builder Pasta.p σ GroupVar) fun j r => r.point.Below j :=
  scaleWith_composed hg fun _ hj _ hP => PointVar.scale_composed hP (hs.mono hj)

theorem scaleShifted_composed {t : ScalarVar} (hg : g.point.Below k)
    (ht : InScope (n := Pasta.p) k t) :
    Composed k (scaleShifted g t : Builder Pasta.p σ GroupVar) fun j r => r.point.Below j :=
  scaleWith_composed hg fun _ hj _ hP =>
    PointVar.scaleShifted_composed highBits hP (ht.mono hj)

theorem assertEqual_composed (hg : g.point.Below k) (hh : h.point.Below k) :
    Composed k (assertEqual g h : Builder Pasta.p σ Unit) fun _ _ => True := by
  unfold assertEqual
  apply (Expr.assertEqual_composed hg.1 hh.1).bind
  intro j hj _ _
  exact Expr.assertEqual_composed (hg.2.mono hj) (hh.2.mono hj)

theorem isEqual_composed (hg : g.point.Below k) (hh : h.point.Below k) :
    Composed k (isEqual g h : Builder Pasta.p σ (BoolVar Pasta.p)) fun j b => b.expr.Below j := by
  unfold isEqual
  apply (Expr.isEqual_composed hg.1 hh.1).bind
  intro j₁ h₁ x hx
  apply (Expr.isEqual_composed (by grind) (by grind)).bind
  intro j₂ h₂ y hy
  exact BoolVar.and_composed (by grind) hy

end GroupVar

end PallasCircuits
