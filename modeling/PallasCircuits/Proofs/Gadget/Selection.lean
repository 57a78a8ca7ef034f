import PallasCircuits.Gadget.Selection
import PallasCircuits.Proofs.CircuitType
import PallasCircuits.Proofs.Gadget.Arithmetic

namespace PallasCircuits

/-- `x` stands at the position of the only entry of the mask that is true. -/
inductive Selects {α : Type} : List Bool → List α → α → Prop
  | here {mask : List Bool} {x : α} {xs : List α} (hmask : ∀ bit ∈ mask, bit = false)
      (hlength : mask.length = xs.length) : Selects (true :: mask) (x :: xs) x
  | there {mask : List Bool} {x y : α} {xs : List α} (h : Selects mask xs x) :
      Selects (false :: mask) (y :: xs) x

namespace Selects

variable {α β : Type} {mask : List Bool} {x : α} {xs : List α}

theorem length_eq (h : Selects mask xs x) : mask.length = xs.length := by
  induction h with
  | here _ hlength => rw [List.length_cons, List.length_cons, hlength]
  | there _ ih => rw [List.length_cons, List.length_cons, ih]

theorem count_eq_one (h : Selects mask xs x) : mask.count true = 1 := by
  induction h with
  | here hmask _ =>
      have hnone : true ∉ _ := fun htrue => Bool.false_ne_true (hmask true htrue).symm
      rw [List.count_cons_self, List.count_eq_zero_of_not_mem hnone]
  | there _ ih => simpa using ih

theorem mem (h : Selects mask xs x) : x ∈ xs := by
  induction h with
  | here _ _ => exact List.mem_cons_self
  | there _ ih => exact List.mem_cons_of_mem _ ih

theorem exists_of_count (hlength : mask.length = xs.length) (hcount : mask.count true = 1) :
    ∃ x, Selects mask xs x := by
  induction mask generalizing xs with
  | nil => cases hcount
  | cons bit mask ih =>
      obtain ⟨x, xs, rfl⟩ := List.exists_cons_of_length_eq_add_one hlength.symm
      have htail : mask.length = xs.length := Nat.succ.inj hlength
      cases bit with
      | false =>
          obtain ⟨y, hy⟩ := ih htail (by simpa using hcount)
          exact ⟨y, .there hy⟩
      | true =>
          have hnone : true ∉ mask := List.count_eq_zero.mp (by simpa using hcount)
          refine ⟨x, .here (fun bit hbit => Bool.eq_false_iff.mpr ?_) htail⟩
          rintro rfl
          exact hnone hbit

theorem map (f : α → β) (h : Selects mask xs x) : Selects mask (xs.map f) (f x) := by
  induction h with
  | here hmask hlength => exact .here hmask (by rw [List.length_map, hlength])
  | there _ ih => exact .there ih

end Selects

namespace CircuitType

variable {n : Nat} [Modulus n] {T V : Type} [CircuitType n T V] {ρ : Nat → Residue n}

def fields (ρ : Nat → Residue n) (x : T) : List (Residue n) :=
  (toExprs (n := n) x).map (·.eval ρ)

theorem length_fields [Lawful n T] (ρ : Nat → Residue n) (x : T) :
    (fields ρ x).length = size n T := by
  rw [fields, List.length_map, Lawful.length_toExprs]

theorem fields_of_ofExprs? [Lawful n T] {xs : List (Expr n)} {a : Aux n T} {x : T}
    (hx : ofExprs? xs a = some x) (hlength : xs.length = size n T) :
    fields ρ x = xs.map (·.eval ρ) := by
  obtain ⟨y, hy, rfl, -⟩ := Lawful.exists_ofExprs? (T := T) xs a hlength
  obtain rfl : y = x := Option.some.inj (hy.symm.trans hx)
  rfl

theorem fields_point_inj {P Q : Coordinates (Expr n)} :
    fields ρ P = fields ρ Q ↔ P.eval ρ = Q.eval ρ := by
  simp [fields, toExprs, Coordinates.toList, Coordinates.eval]

end CircuitType

namespace BoolVar

open Builder

variable {n : Nat} [Modulus n] {σ : Type} {ρ : Nat → Residue n}

/-! Booleans compute truth tables, and choose between expressions. -/

theorem Means.not {x : BoolVar n} {v : Bool} (hx : x.Means ρ v) : x.not.Means ρ !v := by
  unfold Means at hx ⊢
  rw [BoolVar.not, Expr.eval_minus, hx]
  cases v <;> simp

theorem Means.eq_of_toConstant? {x : BoolVar n} {v w : Bool} (hx : x.Means ρ v)
    (hw : x.toConstant? = some w) : w = v := by
  obtain ⟨a, ha, rfl⟩ := Option.map_eq_some_iff.mp hw
  have hvalue : a = .ofBool v := (Expr.eval_of_toConstant? ρ ha).symm.trans hx
  rw [hvalue, Bool.eq_iff_iff, decide_eq_true_iff]
  exact Residue.ofBool_eq_one_iff v

theorem and_ensures (x y : BoolVar n) :
    Ensures ρ (x.and y : Builder n σ (BoolVar n))
      fun z => ∀ u v, x.Means ρ u → y.Means ρ v → z.Means ρ (u && v) := by
  refine .bind (Expr.mul_ensures x.expr y.expr) fun z => .pure ?_
  intro hz u v hx hy
  unfold Means at hx hy ⊢
  rw [hz, hx, hy]
  cases u <;> cases v <;> simp

theorem or_ensures (x y : BoolVar n) :
    Ensures ρ (x.or y : Builder n σ (BoolVar n))
      fun z => ∀ u v, x.Means ρ u → y.Means ρ v → z.Means ρ (u || v) := by
  refine .bind (and_ensures x.not y.not) fun z => .pure ?_
  intro hz u v hx hy
  simpa using (hz _ _ hx.not hy.not).not

theorem xorVar_ensures (x y : BoolVar n) :
    Ensures ρ (x.xorVar y : Builder n σ (BoolVar n))
      fun z => ∀ u v, x.Means ρ u → y.Means ρ v → z.Means ρ (u ^^ v) := by
  refine .skip .computeUnchecked fun z => .bind (.assert _) fun _ => .pure ?_
  intro hproduct u v hx hy
  unfold Means at hx hy ⊢
  rw [Constraint.holds_product] at hproduct
  simp only [Expr.eval_plus, Expr.eval_minus, hx, hy] at hproduct
  have hz : z.expr.eval ρ = .ofBool u + .ofBool v - (.ofBool u + .ofBool u) * .ofBool v := by
    rw [hproduct, sub_sub_cancel]
  rw [hz]
  cases u <;> cases v <;> simp

theorem xor_ensures (x y : BoolVar n) :
    Ensures ρ (x.xor y : Builder n σ (BoolVar n))
      fun z => ∀ u v, x.Means ρ u → y.Means ρ v → z.Means ρ (u ^^ v) := by
  unfold BoolVar.xor
  split
  · next hconst =>
      refine .pure fun u v hx hy => ?_
      obtain rfl := hx.eq_of_toConstant? hconst
      simpa using hy.not
  · next hconst _ =>
      refine .pure fun u v hx hy => ?_
      obtain rfl := hy.eq_of_toConstant? hconst
      simpa using hx.not
  · next hconst _ =>
      refine .pure fun u v hx hy => ?_
      obtain rfl := hx.eq_of_toConstant? hconst
      simpa using hy
  · next hconst _ _ =>
      refine .pure fun u v hx hy => ?_
      obtain rfl := hy.eq_of_toConstant? hconst
      simpa using hx
  · exact xorVar_ensures x y

theorem assertFalse_ensures (x : BoolVar n) :
    Ensures ρ (x.assertFalse : Builder n σ Unit) fun _ => x.Means ρ false := by
  apply (Expr.assertEqual_ensures x.expr 0).mono
  intro _ h
  rwa [Expr.eval_zero] at h

/-! ### Lists of booleans -/

theorem evals_nil : ([] : List (BoolVar n)).map (·.expr.eval ρ) = [].map .ofBool := rfl

theorem evals_cons {b : BoolVar n} {v : Bool} {bs : List (BoolVar n)} {vs : List Bool}
    (hb : b.Means ρ v) (hbs : bs.map (·.expr.eval ρ) = vs.map .ofBool) :
    (b :: bs).map (·.expr.eval ρ) = (v :: vs).map .ofBool :=
  congrArg₂ List.cons hb hbs

theorem exists_of_evals_singleton {x : BoolVar n} {vs : List Bool}
    (h : [x].map (·.expr.eval ρ) = vs.map .ofBool) : ∃ v, vs = [v] ∧ x.Means ρ v := by
  obtain ⟨v, rfl, hv⟩ := List.map_eq_singleton_iff.mp h.symm
  exact ⟨v, rfl, hv.symm⟩

theorem exists_of_evals_pair {x y : BoolVar n} {vs : List Bool}
    (h : [x, y].map (·.expr.eval ρ) = vs.map .ofBool) :
    ∃ u v, vs = [u, v] ∧ x.Means ρ u ∧ y.Means ρ v := by
  obtain ⟨u, ws, rfl, hu, hws⟩ := List.map_eq_cons_iff.mp h.symm
  obtain ⟨v, rfl, hv⟩ := exists_of_evals_singleton hws.symm
  exact ⟨u, v, rfl, hu.symm, hv⟩

theorem any_ensures [PastaPrime n] (xs : List (BoolVar n)) (hlength : xs.length < n) :
    Ensures ρ (any xs : Builder n σ (BoolVar n)) fun b =>
      ∀ vs : List Bool, xs.map (·.expr.eval ρ) = vs.map .ofBool → b.Means ρ (vs.any id) := by
  unfold any
  split
  · refine .pure fun vs hvs => ?_
    obtain rfl : vs = [] := List.map_eq_nil_iff.mp hvs.symm
    exact means_constant false
  · refine .pure fun vs hvs => ?_
    obtain ⟨v, rfl, hv⟩ := exists_of_evals_singleton hvs
    simpa using hv
  · next x y =>
      refine (or_ensures x y).mono fun b hb vs hvs => ?_
      obtain ⟨u, v, rfl, hu, hv⟩ := exists_of_evals_pair hvs
      simpa using hb u v hu hv
  · refine (Expr.isEqual_ensures _ 0).bind fun allZero => .pure ?_
    intro hzero vs hvs
    have hsame : xs.length = vs.length := by simpa using congrArg List.length hvs
    rw [Expr.eval_sum, List.map_map, Function.comp_def, hvs, Expr.eval_zero,
      Residue.decide_sum_ofBool_eq_zero (hsame ▸ hlength)] at hzero
    simpa only [Bool.not_not] using hzero.not

theorem all_ensures [PastaPrime n] (xs : List (BoolVar n)) (hlength : xs.length < n) :
    Ensures ρ (all xs : Builder n σ (BoolVar n)) fun b =>
      ∀ vs : List Bool, xs.map (·.expr.eval ρ) = vs.map .ofBool → b.Means ρ (vs.all id) := by
  unfold all
  split
  · refine .pure fun vs hvs => ?_
    obtain rfl : vs = [] := List.map_eq_nil_iff.mp hvs.symm
    exact means_constant true
  · refine .pure fun vs hvs => ?_
    obtain ⟨v, rfl, hv⟩ := exists_of_evals_singleton hvs
    simpa using hv
  · next x y =>
      refine (and_ensures x y).mono fun b hb vs hvs => ?_
      obtain ⟨u, v, rfl, hu, hv⟩ := exists_of_evals_pair hvs
      simpa using hb u v hu hv
  · refine (Expr.isEqual_ensures _ _).mono fun b hb vs hvs => ?_
    have hsame : xs.length = vs.length := by simpa using congrArg List.length hvs
    rw [Expr.eval_sum, List.map_map, Function.comp_def, hvs, Expr.eval_const, hsame,
      Residue.decide_sum_ofBool_eq_length (hsame ▸ hlength)] at hb
    exact hb

/-! ### Choices -/

theorem choose_ensures (b : BoolVar n) (x y : Expr n) :
    Ensures ρ (b.choose x y : Builder n σ (Expr n))
      fun z => ∀ v, b.Means ρ v → z.eval ρ = if v then x.eval ρ else y.eval ρ := by
  unfold choose
  cases hconst : b.expr.toConstant? with
  | some a =>
      apply Ensures.pure
      intro v hb
      unfold Means at hb
      rw [Expr.eval_of_toConstant? ρ hconst] at hb
      rw [hb]
      cases v <;> simp [Residue.one_ne_zero.symm]
  | none =>
      have hvar : Ensures ρ (b.chooseVar x y : Builder n σ (Expr n))
          fun z => ∀ v, b.Means ρ v → z.eval ρ = if v then x.eval ρ else y.eval ρ := by
        apply Ensures.skip (.compute CircuitType.check_expr_ensures)
        intro z
        refine .bind (.assert _) fun _ => .pure ?_
        intro hproduct v hb
        unfold Means at hb
        rw [Constraint.holds_product, hb, Expr.eval_minus, Expr.eval_minus] at hproduct
        cases v with
        | false =>
            simp only [Residue.ofBool_false, zero_mul] at hproduct
            exact sub_eq_zero.mp hproduct.symm
        | true =>
            simp only [Residue.ofBool_true, one_mul] at hproduct
            exact (sub_left_inj.mp hproduct).symm
      cases hx : x.toConstant? with
      | none => exact hvar
      | some c =>
          cases hy : y.toConstant? with
          | none => exact hvar
          | some d =>
              apply Ensures.pure
              intro v hb
              unfold Means at hb
              rw [Expr.eval_of_toConstant? ρ hx, Expr.eval_of_toConstant? ρ hy]
              simp only [Expr.eval_plus, Expr.eval_smul, Expr.eval_minus, Expr.eval_one, hb]
              cases v <;> simp

theorem chooseEach_ensures (b : BoolVar n) (xs ys : List (Expr n))
    (hlength : xs.length = ys.length) :
    Ensures ρ (b.chooseEach xs ys : Builder n σ (List (Expr n)))
      fun zs => ∀ v, b.Means ρ v →
        zs.map (·.eval ρ) = if v then xs.map (·.eval ρ) else ys.map (·.eval ρ) := by
  induction xs generalizing ys with
  | nil =>
      obtain rfl : ys = [] := List.length_eq_zero_iff.mp hlength.symm
      exact .pure fun v _ => by cases v <;> rfl
  | cons x xs ih =>
      cases ys with
      | nil => cases hlength
      | cons y ys =>
          apply (choose_ensures b x y).bind
          intro z
          refine .bind (ih ys (Nat.succ.inj hlength)) fun zs => .pure ?_
          intro hzs hz v hb
          rw [List.map_cons, hz v hb, hzs v hb]
          cases v <;> rfl

theorem select_ensures {T V : Type} [CircuitType n T V] [CircuitType.Lawful n T] (b : BoolVar n)
    (x y : T) :
    Ensures ρ (b.select x y : Builder n σ T) fun z => ∀ v, b.Means ρ v →
      CircuitType.fields ρ z = if v then CircuitType.fields ρ x else CircuitType.fields ρ y := by
  have hx := CircuitType.Lawful.length_toExprs (n := n) x
  have hy := CircuitType.Lawful.length_toExprs (n := n) y
  refine (chooseEach_ensures b _ _ (hx.trans hy.symm)).bind fun zs => .orAbort ?_
  intro z hz hzs v hb
  have hfields : zs.map (·.eval ρ) =
      if v then CircuitType.fields ρ x else CircuitType.fields ρ y := hzs v hb
  have hlength : (zs.map (·.eval ρ)).length = CircuitType.size n T := by
    rw [hfields]
    cases v with
    | false => exact CircuitType.length_fields ρ y
    | true => exact CircuitType.length_fields ρ x
  rw [CircuitType.fields_of_ofExprs? hz (by simpa using hlength), hfields]

theorem select_value_ensures {T V γ : Type} [CircuitType n T V] [CircuitType.Lawful n T]
    {f : T → γ} (hf : ∀ {x y : T}, CircuitType.fields ρ x = CircuitType.fields ρ y → f x = f y)
    (b : BoolVar n) (x y : T) :
    Ensures ρ (b.select x y : Builder n σ T)
      fun z => ∀ v, b.Means ρ v → f z = if v then f x else f y := by
  refine (select_ensures b x y).mono fun z hz v hb => ?_
  have hfields := hz v hb
  cases v with
  | false => exact hf hfields
  | true => exact hf hfields

theorem select_point_ensures (b : BoolVar n) (P Q : Coordinates (Expr n)) :
    Ensures ρ (b.select P Q : Builder n σ (Coordinates (Expr n)))
      fun R => ∀ v, b.Means ρ v → R.eval ρ = if v then P.eval ρ else Q.eval ρ :=
  select_value_ensures CircuitType.fields_point_inj.mp b P Q

/-! ### Switches -/

def addMultiple (c : Residue n) : List (Residue n) → List (Residue n) → List (Residue n)
  | sum :: sums, x :: xs => (sum + c * x) :: addMultiple c sums xs
  | sums, _ => sums

theorem addMultiple_zero (sums xs : List (Residue n)) : addMultiple 0 sums xs = sums := by
  induction sums generalizing xs with
  | nil => rfl
  | cons sum sums ih =>
      cases xs with
      | nil => rfl
      | cons x xs => rw [addMultiple, ih, zero_mul, add_zero]

theorem addMultiple_one (xs : List (Residue n)) :
    addMultiple 1 (List.replicate xs.length 0) xs = xs := by
  induction xs with
  | nil => rfl
  | cons x xs ih => rw [List.length_cons, List.replicate_succ, addMultiple, ih, one_mul, zero_add]

def addMasked (sums : List (Residue n)) (terms : List (Residue n × List (Residue n))) :
    List (Residue n) :=
  terms.foldl (fun sums term => addMultiple term.1 sums term.2) sums

theorem addMasked_none {mask : List Bool} (hmask : ∀ bit ∈ mask, bit = false)
    (sums : List (Residue n)) (xss : List (List (Residue n))) :
    addMasked sums ((mask.map .ofBool).zip xss) = sums := by
  induction mask generalizing xss with
  | nil => rfl
  | cons bit mask ih =>
      obtain ⟨rfl, hrest⟩ := List.forall_mem_cons.mp hmask
      cases xss with
      | nil => rfl
      | cons xs xss =>
          have htail := ih hrest xss
          unfold addMasked at htail ⊢
          rw [List.map_cons, List.zip_cons_cons, List.foldl_cons]
          simp only [Residue.ofBool_false, addMultiple_zero, htail]

theorem addMasked_of_selects {mask : List Bool} {xss : List (List (Residue n))}
    {xs : List (Residue n)} (h : Selects mask xss xs) :
    addMasked (List.replicate xs.length 0) ((mask.map .ofBool).zip xss) = xs := by
  induction h with
  | @here mask xs xss hmask _ =>
      have hnone := addMasked_none hmask xs xss
      unfold addMasked at hnone ⊢
      rw [List.map_cons, List.zip_cons_cons, List.foldl_cons]
      simp only [Residue.ofBool_true, addMultiple_one, hnone]
  | there _ ih =>
      unfold addMasked at ih ⊢
      rw [List.map_cons, List.zip_cons_cons, List.foldl_cons]
      simp only [Residue.ofBool_false, addMultiple_zero, ih]

theorem addEach_ensures (b : BoolVar n) (sums xs : List (Expr n)) :
    Ensures ρ (b.addEach sums xs : Builder n σ (List (Expr n))) fun zs =>
      zs.map (·.eval ρ) =
        addMultiple (b.expr.eval ρ) (sums.map (·.eval ρ)) (xs.map (·.eval ρ)) := by
  induction sums generalizing xs with
  | nil => exact .pure rfl
  | cons sum sums ih =>
      cases xs with
      | nil => exact .pure rfl
      | cons x xs =>
          apply (Expr.mul_ensures b.expr x).bind
          intro term
          refine .bind (ih xs) fun rest => .pure ?_
          intro hrest hterm
          rw [List.map_cons, hrest, Expr.eval_plus, hterm]
          rfl

theorem addSelected_ensures (sums : List (Expr n)) (terms : List (BoolVar n × List (Expr n))) :
    Ensures ρ (addSelected sums terms : Builder n σ (List (Expr n))) fun zs =>
      zs.map (·.eval ρ) = addMasked (sums.map (·.eval ρ))
        (terms.map fun term => (term.1.expr.eval ρ, term.2.map (·.eval ρ))) := by
  induction terms generalizing sums with
  | nil => exact .pure rfl
  | cons term terms ih =>
      obtain ⟨b, xs⟩ := term
      refine (addEach_ensures b sums xs).bind fun sums' => (ih sums').mono ?_
      intro zs hzs hsums'
      rw [hzs, hsums']
      rfl

theorem switch_checked_ensures {T V : Type} [CircuitType n T V]
    (mask : List (BoolVar n)) (values : List T) :
    Ensures ρ (switch mask values : Builder n σ T) fun _ =>
      mask.length = values.length ∧ (mask.map (·.expr.eval ρ)).sum = 1 := by
  unfold switch
  refine .guard (H := False) (.failSetup _) ?_
  refine (Expr.assertEqual_ensures _ _).bind fun _ => ?_
  refine .skip ((addSelected_ensures _ _).mono fun _ _ => trivial) fun zs => ?_
  refine .orAbort fun _ _ hsum hguard => ⟨?_, ?_⟩
  · by_contra hne
    exact hguard (.inl hne)
  · rwa [Expr.eval_sum, List.map_map, Function.comp_def, Expr.eval_one] at hsum

theorem switch_ensures {T V : Type} [CircuitType n T V] [CircuitType.Lawful n T]
    (mask : List (BoolVar n)) (values : List T) :
    Ensures ρ (switch mask values : Builder n σ T) fun z => ∀ (bits : List Bool) (x : T),
      mask.map (·.expr.eval ρ) = bits.map .ofBool → Selects bits values x →
        CircuitType.fields ρ z = CircuitType.fields ρ x := by
  unfold switch
  refine .guard (H := True) (.failSetup _) ?_
  refine .skip ((Expr.assertEqual_ensures _ _).mono fun _ _ => trivial) fun _ => ?_
  refine (addSelected_ensures _ _).bind fun zs => .orAbort ?_
  intro z hz hzs _ bits x hbits hselects
  have hterms : ((mask.zip (values.map (CircuitType.toExprs (n := n)))).map fun term =>
      (term.1.expr.eval ρ, term.2.map (·.eval ρ))) =
      (bits.map Residue.ofBool).zip (values.map (CircuitType.fields ρ)) := by
    have hmap : values.map (CircuitType.fields ρ) =
        (values.map (CircuitType.toExprs (n := n))).map (List.map (·.eval ρ)) :=
      (List.map_map ..).symm
    rw [← hbits, hmap, List.zip_map]
    rfl
  have hsums : (List.replicate (CircuitType.size n T) (0 : Expr n)).map (·.eval ρ) =
      List.replicate (CircuitType.fields ρ x).length 0 := by
    rw [List.map_replicate, Expr.eval_zero, CircuitType.length_fields]
  have hvalue : zs.map (·.eval ρ) = CircuitType.fields ρ x := by
    rw [hzs, hterms, hsums, addMasked_of_selects (hselects.map (CircuitType.fields ρ))]
  have hlength : zs.length = CircuitType.size n T := by
    rw [← CircuitType.length_fields ρ x, ← hvalue, List.length_map]
  rw [CircuitType.fields_of_ofExprs? hz hlength, hvalue]

end BoolVar

end PallasCircuits
