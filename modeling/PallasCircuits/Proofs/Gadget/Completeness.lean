import PallasCircuits.Proofs.Completeness
import PallasCircuits.Proofs.Gadget.Range

namespace PallasCircuits

open Builder

variable {n : Nat} [Modulus n] {σ : Type} {s : Run n σ}

/-! The gadgets accept what they are meant for: given their values, honest runs of them go
through, and compute what their constraints demand. -/

namespace Expr

variable {x y z : Expr n} {a b : Residue n}

theorem mul_proves (hx : s.Carries x a) (hy : s.Carries y b) :
    Proves s (x.mul y : Builder n σ (Expr n)) fun t z => t.Carries z (a * b) := by
  unfold mul
  cases hcx : x.toConstant? with
  | some c =>
      obtain rfl := hx.eq_of_toConstant? hcx
      cases hcy : y.toConstant? with
      | some d =>
          obtain rfl := hy.eq_of_toConstant? hcy
          exact .pure (.const _)
      | none => exact .pure (hy.smul c)
  | none =>
      cases hcy : y.toConstant? with
      | some d =>
          obtain rfl := hy.eq_of_toConstant? hcy
          rw [mul_comm]
          exact .pure (hx.smul d)
      | none =>
          have hread : s.Reads (do return (← x.value) * (← y.value)) (a * b) :=
            .bind (.value hx) (.bind (.value hy) (.pure _))
          refine (Proves.compute hread).bind fun t z hst hz => ?_
          exact (Proves.product (hx.mono hst) (hy.mono hst) hz rfl).bind fun u _ htu _ =>
            .pure (hz.mono htu)

theorem square_proves (hx : s.Carries x a) :
    Proves s (x.square : Builder n σ (Expr n)) fun t y => t.Carries y (a ^ 2) := by
  unfold square
  cases hc : x.toConstant? with
  | some c =>
      obtain rfl := hx.eq_of_toConstant? hc
      rw [← Residue.square_eq]
      exact .pure (.const _)
  | none =>
      have hread : s.Reads (do return (← x.value).square) (a ^ 2) := by
        rw [← Residue.square_eq]
        exact .bind (.value hx) (.pure _)
      refine (Proves.compute hread).bind fun t y hst hy => ?_
      refine (Proves.assert (c := .square x y) ⟨(hx.mono hst).below, hy.below⟩ ?_).bind
        fun u _ htu _ => .pure (hy.mono htu)
      rw [Constraint.holds_square, (hx.mono hst).eval, hy.eval]

theorem wire_proves (hx : s.Carries x a) :
    Proves s (x.wire : Builder n σ (Expr n)) fun t y => t.Carries y a := by
  unfold wire
  split
  · exact .pure hx
  · exact .pure hx
  · cases hc : x.toConstant? with
    | some c =>
        obtain rfl := hx.eq_of_toConstant? hc
        exact .pure (.const c)
    | none =>
        refine (Proves.compute (.value hx)).bind fun t y hst hy => ?_
        exact (Proves.equal (hx.mono hst) hy).bind fun u _ htu _ => .pure (hy.mono htu)

theorem assertEqual_proves (hx : s.Carries x a) (hy : s.Carries y a) :
    Proves s (x.assertEqual y : Builder n σ Unit) fun _ _ => True := by
  unfold assertEqual
  cases hcx : x.toConstant? with
  | none => exact .equal hx hy
  | some c =>
      cases hcy : y.toConstant? with
      | none => exact .equal hx hy
      | some d =>
          simp only [if_pos ((hx.eq_of_toConstant? hcx).trans (hy.eq_of_toConstant? hcy).symm)]
          exact .pure trivial

theorem assertEqual_of_ne (hs : s.Proving) (heval : s.evaluates = true) (hx : s.Carries x a)
    (hy : s.Carries y b) (hne : a ≠ b) :
    ∃ fault, (fault = .setup (.unequalConstants a.val b.val) ∨
      fault = .violation (.notEqual a.val b.val)) ∧ x.assertEqual y s = .error fault s := by
  have hassert : assert (.equal x y) s = .error (.violation (.notEqual a.val b.val)) s := by
    refine assert_of_unsatisfied hs heval (c := .equal x y) ⟨hx.below, hy.below⟩ ?_
    simp only [Constraint.check, Constraint.read, eval?_some, hx.eval, hy.eval]
    exact if_neg (by simpa using hne)
  unfold assertEqual
  cases hcx : x.toConstant? with
  | none => exact ⟨_, .inr rfl, hassert⟩
  | some c =>
      cases hcy : y.toConstant? with
      | none => exact ⟨_, .inr rfl, hassert⟩
      | some d =>
          obtain rfl := hx.eq_of_toConstant? hcx
          obtain rfl := hy.eq_of_toConstant? hcy
          simp only [if_neg hne]
          exact ⟨_, .inl rfl, rfl⟩

theorem assertBool_proves {v : Bool} (hx : s.Carries x (.ofBool v)) :
    Proves s (x.assertBool : Builder n σ (BoolVar n)) fun t b => t.Carries b v := by
  unfold assertBool
  cases hc : x.toConstant? with
  | some c =>
      have hbit : c = 0 ∨ c = 1 := by
        rw [hx.eq_of_toConstant? hc]
        cases v with
        | false => exact .inl rfl
        | true => exact .inr rfl
      simp only [if_pos hbit]
      exact .pure hx
  | none => exact (Proves.boolean hx).bind fun t _ hst _ => .pure (hx.mono hst)

section

variable [PastaPrime n]

theorem isZeroVar_proves (hz : s.Carries z a) :
    Proves s (z.isZeroVar : Builder n σ (BoolVar n)) fun t b => t.Carries b (decide (a = 0)) := by
  unfold isZeroVar
  refine (Proves.compute (v := (Residue.ofBool (decide (a = 0)), a⁻¹)) ?_).bind ?_
  · refine .bind (.value hz) ?_
    by_cases ha : a = 0
    · simpa [ha] using Run.Reads.pure (1, (0 : Residue n))
    · simpa [ha, Residue.inv?_of_ne_zero ha] using Run.Reads.pure ((0 : Residue n), a⁻¹)
  rintro t ⟨flag, inverse⟩ hst hcells
  obtain ⟨hflag, hinverse⟩ := Run.carries_pair.mp hcells
  have hinv : a⁻¹ * a = 1 - Residue.ofBool (decide (a = 0)) := by
    by_cases ha : a = 0
    · simp [ha]
    · simp [ha]
  have hprod : Residue.ofBool (decide (a = 0)) * a = 0 := by
    by_cases ha : a = 0
    · simp [ha]
    · simp [ha]
  refine (Proves.product hinverse (hz.mono hst) (Run.Carries.one.minus hflag) hinv).bind
    fun u _ htu _ => ?_
  have hflag := hflag.mono htu
  exact (Proves.product hflag (hz.mono (hst.trans htu)) .zero hprod).bind fun w _ huw _ =>
    .pure (hflag.mono huw)

theorem isEqual_proves (hx : s.Carries x a) (hy : s.Carries y b) :
    Proves s (x.isEqual y : Builder n σ (BoolVar n)) fun t z => t.Carries z (decide (a = b)) := by
  have hdiff := hx.minus hy
  have hzero : decide (a - b = 0) = decide (a = b) := decide_eq_decide.mpr sub_eq_zero
  rw [← hzero]
  simp only [isEqual]
  cases hc : (x - y).toConstant? with
  | some c =>
      obtain rfl := hdiff.eq_of_toConstant? hc
      exact .pure (Run.carries_bool.mpr (.const _))
  | none => exact isZeroVar_proves hdiff

end

end Expr

namespace BoolVar

variable {x y b : BoolVar n} {u v : Bool}

theorem carries_means (hb : s.Carries b v) : b.Means s.assignment v :=
  (Run.carries_bool.mp hb).eval

theorem carries_constant (v : Bool) : s.Carries (BoolVar.constant v : BoolVar n) v :=
  .const (.ofBool v)

theorem carries_not (hx : s.Carries x v) : s.Carries x.not !v := by
  have hnot := Run.Carries.one.minus (Run.carries_bool.mp hx)
  have hvalue : (1 : Residue n) - .ofBool v = .ofBool !v := by
    cases v <;> simp
  rw [hvalue] at hnot
  exact hnot

theorem and_proves (hx : s.Carries x u) (hy : s.Carries y v) :
    Proves s (x.and y : Builder n σ (BoolVar n)) fun t z => t.Carries z (u && v) := by
  refine (Expr.mul_proves (Run.carries_bool.mp hx) (Run.carries_bool.mp hy)).bind
    fun t z _ hz => .pure (Run.carries_bool.mpr ?_)
  have hvalue : (Residue.ofBool u * .ofBool v : Residue n) = .ofBool (u && v) := by
    cases u <;> cases v <;> simp
  rwa [hvalue] at hz

theorem or_proves (hx : s.Carries x u) (hy : s.Carries y v) :
    Proves s (x.or y : Builder n σ (BoolVar n)) fun t z => t.Carries z (u || v) := by
  refine (and_proves (carries_not hx) (carries_not hy)).bind fun t z _ hz => .pure ?_
  simpa using carries_not hz

theorem xorVar_proves (hx : s.Carries x u) (hy : s.Carries y v) :
    Proves s (x.xorVar y : Builder n σ (BoolVar n)) fun t z => t.Carries z (u ^^ v) := by
  have hread : s.Reads (do return (← CircuitType.read x) != (← CircuitType.read y)) (u ^^ v) :=
    .bind (.read_bool hx) (.bind (.read_bool hy) (.pure _))
  refine (Proves.computeUnchecked hread).bind fun t z hst hz => ?_
  have hx := Run.carries_bool.mp (hx.mono hst)
  have hy := Run.carries_bool.mp (hy.mono hst)
  have hsum := (hx.plus hy).minus (Run.carries_bool.mp hz)
  refine (Proves.product (hx.plus hx) hy hsum ?_).bind fun w _ htw _ => .pure (hz.mono htw)
  cases u <;> cases v <;> simp

theorem xor_proves (hx : s.Carries x u) (hy : s.Carries y v) :
    Proves s (x.xor y : Builder n σ (BoolVar n)) fun t z => t.Carries z (u ^^ v) := by
  unfold BoolVar.xor
  split
  · next hconst =>
      obtain rfl := (carries_means hx).eq_of_toConstant? hconst
      exact .pure (by simpa using carries_not hy)
  · next hconst _ =>
      obtain rfl := (carries_means hy).eq_of_toConstant? hconst
      exact .pure (by simpa using carries_not hx)
  · next hconst _ =>
      obtain rfl := (carries_means hx).eq_of_toConstant? hconst
      exact .pure (by simpa using hy)
  · next hconst _ _ =>
      obtain rfl := (carries_means hy).eq_of_toConstant? hconst
      exact .pure (by simpa using hx)
  · exact xorVar_proves hx hy

theorem assertFalse_proves (hx : s.Carries x false) :
    Proves s (x.assertFalse : Builder n σ Unit) fun _ _ => True :=
  Expr.assertEqual_proves (Run.carries_bool.mp hx) .zero

theorem choose_proves {x y : Expr n} {c d : Residue n} (hb : s.Carries b v)
    (hx : s.Carries x c) (hy : s.Carries y d) :
    Proves s (b.choose x y : Builder n σ (Expr n)) fun t z => t.Carries z (if v then c else d) := by
  have hb : s.Carries b.expr (.ofBool v) := hb
  unfold choose
  cases hcb : b.expr.toConstant? with
  | some a =>
      obtain rfl := hb.eq_of_toConstant? hcb
      cases v with
      | false => simpa [Residue.one_ne_zero.symm] using Proves.pure hy
      | true => simpa using Proves.pure hx
  | none =>
      have hvar : Proves s (b.chooseVar x y : Builder n σ (Expr n))
          fun t z => t.Carries z (if v then c else d) := by
        have hread : s.Reads (do if (← b.expr.value) = 1 then x.value else y.value)
            (if v then c else d) := by
          refine .bind (.value hb) ?_
          cases v with
          | false => simpa [Residue.one_ne_zero.symm] using Run.Reads.value hy
          | true => simpa using Run.Reads.value hx
        refine (Proves.compute hread).bind fun t z hst hz => ?_
        have hy := hy.mono hst
        refine (Proves.product (hb.mono hst) ((hx.mono hst).minus hy) (hz.minus hy) ?_).bind
          fun u _ htu _ => .pure (hz.mono htu)
        cases v <;> simp
      cases hcx : x.toConstant? with
      | none => exact hvar
      | some c' =>
          obtain rfl := hx.eq_of_toConstant? hcx
          cases hcy : y.toConstant? with
          | none => exact hvar
          | some d' =>
              obtain rfl := hy.eq_of_toConstant? hcy
              refine .pure ?_
              have hsum := (hb.smul c').plus ((Run.Carries.one.minus hb).smul d')
              cases v with
              | false => simpa using hsum
              | true => simpa using hsum

theorem chooseEach_proves {xs ys : List (Expr n)} {cs ds : List (Residue n)}
    (hb : s.Carries b v) (hxs : s.CarriesAll xs cs) (hys : s.CarriesAll ys ds)
    (hlength : xs.length = ys.length) :
    Proves s (b.chooseEach xs ys : Builder n σ (List (Expr n)))
      fun t zs => t.CarriesAll zs (if v then cs else ds) := by
  induction xs generalizing s ys cs ds with
  | nil =>
      obtain rfl : ys = [] := List.length_eq_zero_iff.mp hlength.symm
      obtain rfl : cs = [] := List.length_eq_zero_iff.mp hxs.length_eq.symm
      obtain rfl : ds = [] := List.length_eq_zero_iff.mp hys.length_eq.symm
      exact .pure (by simp)
  | cons x xs ih =>
      obtain ⟨y, ys, rfl⟩ := List.exists_cons_of_length_eq_add_one hlength.symm
      obtain ⟨c, cs, rfl⟩ := List.exists_cons_of_length_eq_add_one hxs.length_eq.symm
      obtain ⟨d, ds, rfl⟩ := List.exists_cons_of_length_eq_add_one hys.length_eq.symm
      obtain ⟨hx, hxs⟩ := Run.carriesAll_cons.mp hxs
      obtain ⟨hy, hys⟩ := Run.carriesAll_cons.mp hys
      refine (choose_proves hb hx hy).bind fun t z hst hz => ?_
      refine (ih (hb.mono hst) (hxs.mono hst) (hys.mono hst)
        (Nat.succ.inj hlength)).bind fun u zs htu hzs => .pure ?_
      have hcons := Run.carriesAll_cons.mpr ⟨hz.mono htu, hzs⟩
      cases v with
      | false => exact hcons
      | true => exact hcons

section

variable {T V : Type} [CircuitType n T V] [CircuitType.Lawful n T]

theorem orAbort_fields_proves {xs : List (Expr n)} {a : CircuitType.Aux n T}
    {as : List (Residue n)} (hxs : s.CarriesAll xs as) (hlength : as.length = CircuitType.size n T) :
    Proves s (orAbort (CircuitType.ofExprs? xs a) : Builder n σ T) fun t x =>
      t.CarriesAll (CircuitType.toExprs x) as := by
  obtain ⟨x, hx, rfl, -⟩ :=
    CircuitType.Lawful.exists_ofExprs? (T := T) xs a (hxs.length_eq.trans hlength)
  exact .orAbort hx hxs

theorem select_fields_proves {x y : T} {as bs : List (Residue n)} (hb : s.Carries b v)
    (hx : s.CarriesAll (CircuitType.toExprs x) as)
    (hy : s.CarriesAll (CircuitType.toExprs y) bs) :
    Proves s (b.select x y : Builder n σ T) fun t z =>
      t.CarriesAll (CircuitType.toExprs z) (if v then as else bs) := by
  have hlengthx := CircuitType.Lawful.length_toExprs (n := n) x
  have hlengthy := CircuitType.Lawful.length_toExprs (n := n) y
  refine (chooseEach_proves hb hx hy (hlengthx.trans hlengthy.symm)).bind fun t zs _ hzs =>
    orAbort_fields_proves hzs ?_
  cases v with
  | false => exact hy.length_eq.symm.trans hlengthy
  | true => exact hx.length_eq.symm.trans hlengthx

theorem select_proves {x y : T} {c d : V} (hb : s.Carries b v) (hx : s.Carries x c)
    (hy : s.Carries y d) :
    Proves s (b.select x y : Builder n σ T) fun t z => t.Carries z (if v then c else d) := by
  refine (select_fields_proves hb hx hy).mono fun t z _ hz => ?_
  cases v with
  | false => exact hz
  | true => exact hz

end

theorem carriesAll_nil :
    s.CarriesAll (([] : List (BoolVar n)).map expr) (([] : List Bool).map .ofBool) :=
  Run.carriesAll_nil

theorem carriesAll_cons {bs : List (BoolVar n)} {vs : List Bool} (hb : s.Carries b v)
    (hbs : s.CarriesAll (bs.map expr) (vs.map .ofBool)) :
    s.CarriesAll ((b :: bs).map expr) ((v :: vs).map .ofBool) :=
  Run.carriesAll_cons.mpr ⟨Run.carries_bool.mp hb, hbs⟩

theorem exists_carries_pair {vs : List Bool}
    (hxs : s.CarriesAll ([x, y].map expr) (vs.map .ofBool)) :
    ∃ u v, s.Carries x u ∧ s.Carries y v := by
  obtain ⟨u, v, rfl⟩ := List.length_eq_two.mp (by simpa using hxs.length_eq.symm)
  obtain ⟨hx, hy⟩ := Run.carriesAll_cons.mp hxs
  exact ⟨u, v, hx, hy⟩

theorem carries_of_ensures {m : Builder n σ (BoolVar n)} {xs : List (BoolVar n)} {vs : List Bool}
    {f : List Bool → Bool} (hxs : s.CarriesAll (xs.map expr) (vs.map .ofBool))
    (hscope : Proves s m fun t b => b.expr.Below t.nextVar)
    (hensures : ∀ ρ, Ensures ρ m fun b =>
      ∀ vs : List Bool, xs.map (·.expr.eval ρ) = vs.map .ofBool → b.Means ρ (f vs)) :
    Proves s m fun t b => t.Carries b (f vs) := by
  refine (hscope.of_ensures hensures).mono ?_
  rintro t b hst ⟨hbelow, hb⟩
  refine Run.carries_bool.mpr (Run.carries_expr.mpr ⟨hbelow, hb vs ?_⟩)
  simpa [Function.comp_def] using (hxs.mono hst).eval

theorem any_proves [PastaPrime n] {xs : List (BoolVar n)} {vs : List Bool}
    (hxs : s.CarriesAll (xs.map expr) (vs.map .ofBool)) (hlength : xs.length < n) :
    Proves s (any xs : Builder n σ (BoolVar n)) fun t b => t.Carries b (vs.any id) := by
  refine carries_of_ensures hxs ?_ fun ρ => any_ensures xs hlength
  unfold any
  split
  · exact .pure trivial
  · next x => exact .pure (hxs.below x.expr (by simp))
  · next x y =>
      obtain ⟨u, v, hx, hy⟩ := exists_carries_pair hxs
      exact (or_proves hx hy).mono fun t z _ hz => (Run.carries_bool.mp hz).below
  · refine (Expr.isEqual_proves (.sum hxs) .zero).bind fun t z _ hz => .pure ?_
    exact (Run.carries_bool.mp (carries_not hz)).below

theorem all_proves [PastaPrime n] {xs : List (BoolVar n)} {vs : List Bool}
    (hxs : s.CarriesAll (xs.map expr) (vs.map .ofBool)) (hlength : xs.length < n) :
    Proves s (all xs : Builder n σ (BoolVar n)) fun t b => t.Carries b (vs.all id) := by
  refine carries_of_ensures hxs ?_ fun ρ => all_ensures xs hlength
  unfold all
  split
  · exact .pure trivial
  · next x => exact .pure (hxs.below x.expr (by simp))
  · next x y =>
      obtain ⟨u, v, hx, hy⟩ := exists_carries_pair hxs
      exact (and_proves hx hy).mono fun t z _ hz => (Run.carries_bool.mp hz).below
  · exact (Expr.isEqual_proves (.sum hxs) (.const _)).mono fun t z _ hz =>
      (Run.carries_bool.mp hz).below

theorem addEach_proves {sums xs : List (Expr n)} (hb : b.expr.Below s.nextVar)
    (hsums : ∀ sum ∈ sums, sum.Below s.nextVar) (hxs : ∀ x ∈ xs, x.Below s.nextVar) :
    Proves s (b.addEach sums xs : Builder n σ (List (Expr n)))
      fun t zs => zs.length = sums.length ∧ ∀ z ∈ zs, z.Below t.nextVar := by
  induction sums generalizing s xs with
  | nil => exact .pure ⟨rfl, hsums⟩
  | cons sum sums ih =>
      cases xs with
      | nil => exact .pure ⟨rfl, hsums⟩
      | cons x xs =>
          obtain ⟨hsum, hsums⟩ := List.forall_mem_cons.mp hsums
          obtain ⟨hx, hxs⟩ := List.forall_mem_cons.mp hxs
          refine (Expr.mul_proves (.of_below hb) (.of_below hx)).bind fun t term hst hterm => ?_
          have hle := hst.nextVar_le
          refine (ih (hb.mono hle) (fun y hy => (hsums y hy).mono hle)
            fun y hy => (hxs y hy).mono hle).bind fun u rest htu hrest => .pure ?_
          have hsum := hsum.mono (hle.trans htu.nextVar_le)
          have hhead := Expr.below_plus hsum (hterm.below.mono htu.nextVar_le)
          exact ⟨by simp [hrest.1], List.forall_mem_cons.mpr ⟨hhead, hrest.2⟩⟩

theorem addSelected_proves {sums : List (Expr n)} {terms : List (BoolVar n × List (Expr n))}
    (hsums : ∀ sum ∈ sums, sum.Below s.nextVar)
    (hterms : ∀ term ∈ terms, term.1.expr.Below s.nextVar ∧ ∀ x ∈ term.2, x.Below s.nextVar) :
    Proves s (addSelected sums terms : Builder n σ (List (Expr n)))
      fun t zs => zs.length = sums.length ∧ ∀ z ∈ zs, z.Below t.nextVar := by
  induction terms generalizing s sums with
  | nil => exact .pure ⟨rfl, hsums⟩
  | cons term terms ih =>
      obtain ⟨b, xs⟩ := term
      obtain ⟨⟨hb, hxs⟩, hterms⟩ := List.forall_mem_cons.mp hterms
      refine (addEach_proves hb hsums hxs).bind ?_
      rintro t sums' hst ⟨hlength, hsums'⟩
      rw [← hlength]
      refine ih hsums' fun term hterm => ?_
      have hle := hst.nextVar_le
      exact ⟨(hterms term hterm).1.mono hle, fun x hx => ((hterms term hterm).2 x hx).mono hle⟩

theorem switch_proves {T V : Type} [CircuitType n T V] [CircuitType.Lawful n T]
    {mask : List (BoolVar n)} {values : List T} {bits : List Bool} {x : T}
    {as : List (Residue n)} (hmask : s.CarriesAll (mask.map expr) (bits.map .ofBool))
    (hselects : Selects bits values x) (hvalues : ∀ y ∈ values, InScope (n := n) s.nextVar y)
    (hx : s.CarriesAll (CircuitType.toExprs x) as) :
    Proves s (switch mask values : Builder n σ T) fun t z =>
      t.CarriesAll (CircuitType.toExprs z) as := by
  have hlength : mask.length = values.length := by
    have hsame := hmask.length_eq
    rw [List.length_map, List.length_map] at hsame
    rw [hsame, hselects.length_eq]
  have hsum : (bits.map (Residue.ofBool (n := n))).sum = 1 := by
    rw [Residue.sum_ofBool, hselects.count_eq_one, Nat.cast_one]
  have hscope : Proves s (switch mask values : Builder n σ T)
      fun t z => InScope (n := n) t.nextVar z := by
    unfold switch
    refine .guard (fun herror => ?_) fun t hst => ?_
    · rcases herror with hne | hempty
      · exact absurd hlength hne
      · cases hselects with
        | here _ _ => cases hempty
        | there _ => cases hempty
    · have hone := Run.Carries.sum (hmask.mono hst)
      rw [hsum] at hone
      refine (Expr.assertEqual_proves hone .one).bind fun u _ htu _ => ?_
      have hle := (hst.trans htu).nextVar_le
      refine (addSelected_proves ?_ ?_).bind ?_
      · intro sum hzero
        rw [List.eq_of_mem_replicate hzero]
        trivial
      · rintro ⟨b, xs⟩ hterm
        obtain ⟨hb, hxs⟩ := List.of_mem_zip hterm
        obtain ⟨y, hy, rfl⟩ := List.mem_map.mp hxs
        exact ⟨(hmask.below _ (List.mem_map_of_mem hb)).mono hle,
          fun x hx => (hvalues y hy x hx).mono hle⟩
      · rintro w zs huw ⟨hzs, hbelow⟩
        obtain ⟨z, hz, rfl, -⟩ := CircuitType.Lawful.exists_ofExprs? (T := T) zs _
          (hzs.trans (List.length_replicate ..))
        exact .orAbort hz hbelow
  refine (hscope.of_ensures fun ρ => switch_ensures mask values).mono ?_
  rintro t z hst ⟨hbelow, hz⟩
  refine ⟨hbelow, (hz bits x ?_ hselects).trans (hx.mono hst).eval⟩
  simpa [Function.comp_def] using (hmask.mono hst).eval

end BoolVar

/-! ### Ranges -/

namespace Expr

variable {x : Expr n} {a : Residue n}

theorem assert64_proves (hx : s.Carries x a) (ha : a.val < 2 ^ 64) :
    Proves s (x.assert64 : Builder n σ Unit) fun _ _ => True := by
  unfold assert64
  split
  · exact .pure trivial
  · refine .assert (c := .range64 x) hx.below ?_
    rwa [Constraint.holds_range64, hx.eval]

variable [PastaPrime n]

theorem assertChunk_proves {bits : Nat} (hbits : bits ≤ 64) (hx : s.Carries x a)
    (ha : a.val < 2 ^ bits) :
    Proves s (x.assertChunk bits : Builder n σ Unit) fun _ _ => True := by
  have hle : 2 ^ bits ≤ 2 ^ 64 := Nat.pow_le_pow_right (by decide) hbits
  unfold assertChunk
  refine (assert64_proves hx (ha.trans_le hle)).bind fun t _ hst _ => ?_
  split
  · refine assert64_proves ((hx.mono hst).smul _) ?_
    rw [Residue.twoPow_eq]
    exact (Residue.val_two_pow_mul_lt_iff hbits (ha.trans_le hle)).mpr ha
  · exact .pure trivial

omit [PastaPrime n] in
theorem compute_digits_proves (k : Nat) {value : Reading n (Residue n × Residue n)}
    (hvalue : s.Reads value (.ofNat (a.val % 2 ^ k), .ofNat (a.val / 2 ^ k))) :
    Proves s (compute value : Builder n σ (Expr n × Expr n)) fun t r =>
      t.Carries r.1 ((a.val % 2 ^ k : Nat) : Residue n) ∧
        t.Carries r.2 ((a.val / 2 ^ k : Nat) : Residue n) ∧
        t.Carries (r.1 + (.twoPow k : Residue n) • r.2) a := by
  refine (Proves.compute hvalue).mono fun t r hst hr => ?_
  obtain ⟨hlo, hhi⟩ := Run.carries_pair.mp hr
  refine ⟨hlo, hhi, ?_⟩
  have hsum := hlo.plus (hhi.smul (.twoPow k))
  have hdigits := Residue.natCast_mod_add_mul_div a (2 ^ k)
  exact hdigits ▸ hsum

theorem assertWidth_proves {bits : Nat} (hbits : bits ≤ 128) (hx : s.Carries x a)
    (ha : a.val < 2 ^ bits) :
    Proves s (x.assertWidth bits : Builder n σ Unit) fun _ _ => True := by
  unfold assertWidth
  rw [if_neg (by omega)]
  split
  · next hsmall => exact assertChunk_proves hsmall hx ha
  · next hlarge =>
      refine (compute_digits_proves 64 (.bind (.value hx) (.pure _))).bind ?_
      rintro t ⟨lo, hi⟩ hst ⟨hlo, hhi, hsum⟩
      refine (assertEqual_proves (hx.mono hst) hsum).bind fun u _ htu _ => ?_
      refine (assert64_proves (hlo.mono htu) ?_).bind fun w _ huw _ => ?_
      · rw [Residue.val_natCast_of_le_val (Nat.mod_le _ _)]
        exact Nat.mod_lt _ (Nat.two_pow_pos _)
      · refine assertChunk_proves (by omega) (hhi.mono (htu.trans huw)) ?_
        rw [Residue.val_natCast_of_le_val (Nat.div_le_self _ _), Nat.div_lt_iff_lt_mul
          (Nat.two_pow_pos _), ← pow_add]
        exact ha.trans_le (Nat.pow_le_pow_right (by decide) (by omega))

theorem carries_gap {bound k : Nat} (hbound : bound < n) (hk : k ≤ bound)
    (hx : s.Carries x (k : Residue n)) :
    s.Carries (.const (.ofNat bound) - x) ((bound - k : Nat) : Residue n) ∧
      ((bound - k : Nat) : Residue n).val = bound - k := by
  refine ⟨?_, Residue.val_natCast_of_lt (by omega)⟩
  rw [Nat.cast_sub hk]
  exact (Run.Carries.const _).minus hx

theorem assertAtMostVar_proves {bound : Nat} (hbound : bound < 2 ^ 254) (hx : s.Carries x a)
    (ha : a.val ≤ bound) :
    Proves s (x.assertAtMostVar bound : Builder n σ Unit) fun _ _ => True := by
  have hn := PastaPrime.two_pow_lt (n := n)
  have hwidth : Binary.width bound ≤ 254 := (Binary.width_le_iff bound 254).mpr hbound
  have hlt : bound < 2 ^ Binary.width bound := (Binary.width_le_iff bound _).mp le_rfl
  have hhiLe : a.val / 2 ^ 128 ≤ bound / 2 ^ 128 := Nat.div_le_div_right ha
  have hhiLt : bound / 2 ^ 128 < 2 ^ (Binary.width bound - 128) := by
    rw [Nat.div_lt_iff_lt_mul (Nat.two_pow_pos _), ← pow_add]
    exact hlt.trans_le (Nat.pow_le_pow_right (by decide) (by omega))
  have hloLt : ∀ k, k % 2 ^ 128 < 2 ^ 128 := fun k => Nat.mod_lt k (Nat.two_pow_pos _)
  unfold assertAtMostVar
  refine (compute_digits_proves 128 (.bind (.value hx) (.pure _))).bind ?_
  rintro t₁ ⟨lo, hi⟩ h₁ ⟨hlo, hhi, hsum⟩
  refine (assertWidth_proves (le_refl 128) hlo ?_).bind fun t₂ _ h₂ _ => ?_
  · rw [Residue.val_natCast_of_le_val (Nat.mod_le _ _)]
    exact hloLt _
  replace hlo := hlo.mono h₂
  replace hhi := hhi.mono h₂
  refine (assertWidth_proves (by omega) hhi ?_).bind fun t₃ _ h₃ _ => ?_
  · rw [Residue.val_natCast_of_le_val (Nat.div_le_self _ _)]
    exact hhiLe.trans_lt hhiLt
  replace hlo := hlo.mono h₃
  replace hhi := hhi.mono h₃
  have hx := hx.mono ((h₁.trans h₂).trans h₃)
  refine (assertEqual_proves hx (hsum.mono (h₂.trans h₃))).bind fun t₄ _ h₄ _ => ?_
  replace hlo := hlo.mono h₄
  obtain ⟨hgap, hgapVal⟩ := carries_gap (by omega) hhiLe (hhi.mono h₄)
  refine (assertWidth_proves (by omega) hgap ?_).bind fun t₅ _ h₅ _ => ?_
  · rw [hgapVal]
    omega
  refine (isEqual_proves (hgap.mono h₅) .zero).bind fun t₆ tie h₆ htie => ?_
  have hloGap := (Run.Carries.const (.ofNat (bound % 2 ^ 128))).minus (hlo.mono (h₅.trans h₆))
  refine (BoolVar.choose_proves htie hloGap .zero).bind fun t₇ gap h₇ hgap => ?_
  refine assertWidth_proves le_rfl hgap ?_
  by_cases htie : ((bound / 2 ^ 128 - a.val / 2 ^ 128 : Nat) : Residue n) = 0
  · have hdigits := Nat.div_add_mod bound (2 ^ 128)
    have hdigits' := Nat.div_add_mod a.val (2 ^ 128)
    have hsame : bound / 2 ^ 128 - a.val / 2 ^ 128 = 0 := by
      rw [← hgapVal, htie, Residue.val_zero]
    have hloLe : a.val % 2 ^ 128 ≤ bound % 2 ^ 128 := by omega
    rw [decide_eq_true htie, if_pos rfl, Residue.ofNat_eq_natCast, ← Nat.cast_sub hloLe,
      Residue.val_natCast_of_lt (by omega)]
    exact (Nat.sub_le _ _).trans_lt (hloLt bound)
  · rw [decide_eq_false htie, if_neg Bool.false_ne_true, Residue.val_zero]
    exact Nat.two_pow_pos 128

theorem assertAtMost_proves {bound : Nat} (hbound : bound < 2 ^ 254) (hx : s.Carries x a)
    (ha : a.val ≤ bound) :
    Proves s (x.assertAtMost bound : Builder n σ Unit) fun _ _ => True := by
  cases hc : x.toConstant? with
  | none =>
      rw [assertAtMost_of_var hbound hc]
      exact assertAtMostVar_proves hbound hx ha
  | some c =>
      obtain rfl := hx.eq_of_toConstant? hc
      rw [assertAtMost_of_constant hbound hc, if_pos ha]
      exact .pure trivial

theorem halveVar_proves (hx : s.Carries x a) :
    Proves s (x.halveVar : Builder n σ (BoolVar n × Expr n)) fun t r =>
      t.Carries r.1 (a.val.testBit 0) ∧ t.Carries r.2 ((a.val / 2 : Nat) : Residue n) := by
  have hlt := a.isLt
  have hread : s.Reads (do
      let a ← x.value
      return (a.val.testBit 0, .ofNat (a.val / 2)) : Reading n (Bool × Residue n))
      (a.val.testBit 0, .ofNat (a.val / 2)) := .bind (.value hx) (.pure _)
  unfold halveVar
  refine (Proves.compute hread).bind ?_
  rintro t₁ ⟨parity, half⟩ h₁ hcells
  obtain ⟨hparity, hhalf⟩ := Run.carries_pair.mp hcells
  have hsum := (Run.carries_bool.mp hparity).plus (hhalf.smul ((2 : Nat) : Residue n))
  rw [Residue.ofNat_eq_natCast, Residue.ofBool_testBit_add_two_mul] at hsum
  refine (assertEqual_proves (hx.mono h₁) hsum).bind fun t₂ _ h₂ _ => ?_
  refine (assertAtMost_proves (PastaPrime.half_lt n) (hhalf.mono h₂) ?_).bind
    fun t₃ _ h₃ _ => ?_
  · rw [Residue.ofNat_eq_natCast, Residue.val_natCast_of_le_val (Nat.div_le_self _ _)]
    omega
  have h₁₃ := h₂.trans h₃
  refine (isEqual_proves (hhalf.mono h₁₃) (.const _)).bind fun t₄ extreme h₄ hextreme => ?_
  have h₁₄ := h₁₃.trans h₄
  exact (Proves.product (Run.carries_bool.mp (hparity.mono h₁₄)) (Run.carries_bool.mp hextreme)
    .zero (Residue.parity_mul_greatest a)).bind fun t₅ _ h₅ _ =>
      .pure ⟨hparity.mono (h₁₄.trans h₅), hhalf.mono (h₁₄.trans h₅)⟩

theorem halve_proves (hx : s.Carries x a) :
    Proves s (x.halve : Builder n σ (BoolVar n × Expr n)) fun t r =>
      t.Carries r.1 (a.val.testBit 0) ∧ t.Carries r.2 ((a.val / 2 : Nat) : Residue n) := by
  unfold halve
  cases hc : x.toConstant? with
  | some c =>
      obtain rfl := hx.eq_of_toConstant? hc
      exact .pure ⟨BoolVar.carries_constant _, .const _⟩
  | none => exact halveVar_proves hx

end Expr

end PallasCircuits
