import PallasCircuits.Proofs.Gadget.Composed

namespace PallasCircuits

open Builder

/-- The operations of the library that take no computation as an argument. Their operands
only mention the first `k` variables, and `Q` bounds those that their results mention. -/
inductive Operation {σ : Type} : {n : Nat} → [Modulus n] → {α : Type} → Nat → Builder n σ α →
    (Nat → α → Prop) → Prop
  | constrain {n k : Nat} [Modulus n] {cs : List (Constraint n)} (h : ∀ c ∈ cs, c.Below k) :
      Operation k (constrain cs) fun _ _ => True
  | mul {n k : Nat} [Modulus n] {x y : Expr n} (hx : x.Below k) (hy : y.Below k) :
      Operation k (x.mul y) fun j z => z.Below j
  | square {n k : Nat} [Modulus n] {x : Expr n} (hx : x.Below k) :
      Operation k x.square fun j z => z.Below j
  | wire {n k : Nat} [Modulus n] {x : Expr n} (hx : x.Below k) :
      Operation k x.wire fun j z => z.Below j
  | isEqual {n k : Nat} [Modulus n] {x y : Expr n} (hx : x.Below k) (hy : y.Below k) :
      Operation k (x.isEqual y) fun j b => b.expr.Below j
  | assertEqual {n k : Nat} [Modulus n] {x y : Expr n} (hx : x.Below k) (hy : y.Below k) :
      Operation k (x.assertEqual y) fun _ _ => True
  | assertBool {n k : Nat} [Modulus n] {x : Expr n} (hx : x.Below k) :
      Operation k x.assertBool fun j b => b.expr.Below j
  | and {n k : Nat} [Modulus n] {x y : BoolVar n} (hx : x.expr.Below k) (hy : y.expr.Below k) :
      Operation k (x.and y) fun j b => b.expr.Below j
  | or {n k : Nat} [Modulus n] {x y : BoolVar n} (hx : x.expr.Below k) (hy : y.expr.Below k) :
      Operation k (x.or y) fun j b => b.expr.Below j
  | xor {n k : Nat} [Modulus n] {x y : BoolVar n} (hx : x.expr.Below k) (hy : y.expr.Below k) :
      Operation k (x.xor y) fun j b => b.expr.Below j
  | any {n k : Nat} [Modulus n] {xs : List (BoolVar n)} (h : ∀ x ∈ xs, x.expr.Below k) :
      Operation k (BoolVar.any xs) fun j b => b.expr.Below j
  | all {n k : Nat} [Modulus n] {xs : List (BoolVar n)} (h : ∀ x ∈ xs, x.expr.Below k) :
      Operation k (BoolVar.all xs) fun j b => b.expr.Below j
  | assertTrue {n k : Nat} [Modulus n] {x : BoolVar n} (hx : x.expr.Below k) :
      Operation k x.assertTrue fun _ _ => True
  | assertFalse {n k : Nat} [Modulus n] {x : BoolVar n} (hx : x.expr.Below k) :
      Operation k x.assertFalse fun _ _ => True
  | choose {n k : Nat} [Modulus n] {b : BoolVar n} {x y : Expr n} (hb : b.expr.Below k)
      (hx : x.Below k) (hy : y.Below k) : Operation k (b.choose x y) fun j z => z.Below j
  | select {n k : Nat} [Modulus n] {T V : Type} [CircuitType n T V] [CircuitType.Lawful n T]
      {b : BoolVar n} {x y : T} (hb : b.expr.Below k) (hx : InScope (n := n) k x)
      (hy : InScope (n := n) k y) :
      Operation k (b.select x y : Builder n σ T) fun j z => InScope (n := n) j z
  | switch {n k : Nat} [Modulus n] {T V : Type} [CircuitType n T V] [CircuitType.Lawful n T]
      {mask : List (BoolVar n)} {values : List T} (hmask : ∀ b ∈ mask, b.expr.Below k)
      (hvalues : ∀ x ∈ values, InScope (n := n) k x) :
      Operation k (BoolVar.switch mask values : Builder n σ T) fun j z => InScope (n := n) j z
  | check {n k : Nat} [Modulus n] {T V : Type} [CircuitType n T V] [CircuitType.Composable n T]
      {x : T} (hx : InScope (n := n) k x) :
      Operation k (CircuitType.check x : Builder n σ Unit) fun _ _ => True
  | assert64 {n k : Nat} [Modulus n] {x : Expr n} (hx : x.Below k) :
      Operation k x.assert64 fun _ _ => True
  | assertWidth {n k : Nat} [Modulus n] {x : Expr n} (bits : Nat) (hx : x.Below k) :
      Operation k (x.assertWidth bits) fun _ _ => True
  | assertAtMost {n k : Nat} [Modulus n] {x : Expr n} (bound : Nat) (hx : x.Below k) :
      Operation k (x.assertAtMost bound) fun _ _ => True
  | halve {n k : Nat} [Modulus n] {x : Expr n} (hx : x.Below k) :
      Operation k x.halve fun j p => p.1.expr.Below j ∧ p.2.Below j
  | assertRange {n k : Nat} [Modulus n] {x : Limbs (Expr n)} (hx : x.Below k) :
      Operation k x.assertRange fun _ _ => True
  | subLimbs {n k : Nat} [Modulus n] {a b : Limbs (Expr n)} (modulus : Nat) (ha : a.Below k)
      (hb : b.Below k) : Operation k (a.sub b modulus) fun j z => z.Below j
  | assertLess {n k : Nat} [Modulus n] {x : Limbs (Expr n)} (bound : Nat) (hx : x.Below k) :
      Operation k (x.assertLess bound) fun _ _ => True
  | addPoints {n k : Nat} [Modulus n] {P Q : PointVar n} (hP : P.Below k) (hQ : Q.Below k) :
      Operation k (P.add Q) fun j r => r.1.Below j ∧ r.2.expr.Below j
  | addFinite {n k : Nat} [Modulus n] {P Q : PointVar n} (hP : P.Below k) (hQ : Q.Below k) :
      Operation k (P.addFinite Q) fun j R => R.Below j
  | scaleUnpack {n k : Nat} [Modulus n] {P : PointVar n} {s : Expr n} (count : Nat)
      (hP : P.Below k) (hs : s.Below k) :
      Operation k (P.scaleUnpack s count) fun j r => r.1.Below j ∧ ∀ x ∈ r.2, x.Below j
  | ofExpr {k : Nat} {s : Expr Pasta.p} (hs : s.Below k) :
      Operation k (ScalarVar.ofExpr s) fun j t => InScope (n := Pasta.p) j t
  | ofLimbs {k : Nat} {s : Limbs (Expr Pasta.p)} (hs : s.Below k) :
      Operation k (ScalarVar.ofLimbs s) fun j t => InScope (n := Pasta.p) j t
  | scalePoint {k : Nat} {P : PointVar Pasta.p} {s : Expr Pasta.p} (hP : P.Below k)
      (hs : s.Below k) : Operation k (P.scale s) fun j R => R.Below j
  | scalePointShifted {k : Nat} {P : PointVar Pasta.p} {t : ScalarVar} (count : Nat)
      (hP : P.Below k) (ht : InScope (n := Pasta.p) k t) :
      Operation k (P.scaleShifted t count) fun j R => R.Below j
  | isZero {k : Nat} {g : GroupVar} (hg : g.point.Below k) :
      Operation k g.isZero fun j b => b.expr.Below j
  | add {k : Nat} {g h : GroupVar} (hg : g.point.Below k) (hh : h.point.Below k) :
      Operation k (g.add h) fun j r => r.point.Below j
  | sub {k : Nat} {g h : GroupVar} (hg : g.point.Below k) (hh : h.point.Below k) :
      Operation k (g.sub h) fun j r => r.point.Below j
  | scale {k : Nat} {g : GroupVar} {s : Expr Pasta.p} (hg : g.point.Below k) (hs : s.Below k) :
      Operation k (g.scale s) fun j r => r.point.Below j
  | scaleShifted {k : Nat} {g : GroupVar} {t : ScalarVar} (hg : g.point.Below k)
      (ht : InScope (n := Pasta.p) k t) : Operation k (g.scaleShifted t) fun j r => r.point.Below j
  | assertEqualGroup {k : Nat} {g h : GroupVar} (hg : g.point.Below k) (hh : h.point.Below k) :
      Operation k (g.assertEqual h) fun _ _ => True
  | isEqualGroup {k : Nat} {g h : GroupVar} (hg : g.point.Below k) (hh : h.point.Below k) :
      Operation k (g.isEqual h) fun j b => b.expr.Below j

theorem Operation.composed {σ : Type} {n k : Nat} [Modulus n] {α : Type} {m : Builder n σ α}
    {Q : Nat → α → Prop} (h : Operation k m Q) : Composed k m Q := by
  cases h with
  | constrain h => exact .constrain h
  | mul hx hy => exact Expr.mul_composed hx hy
  | square hx => exact Expr.square_composed hx
  | wire hx => exact Expr.wire_composed hx
  | isEqual hx hy => exact Expr.isEqual_composed hx hy
  | assertEqual hx hy => exact Expr.assertEqual_composed hx hy
  | assertBool hx => exact Expr.assertBool_composed hx
  | and hx hy => exact BoolVar.and_composed hx hy
  | or hx hy => exact BoolVar.or_composed hx hy
  | xor hx hy => exact BoolVar.xor_composed hx hy
  | any h => exact BoolVar.any_composed h
  | all h => exact BoolVar.all_composed h
  | assertTrue hx => exact BoolVar.assertTrue_composed hx
  | assertFalse hx => exact BoolVar.assertFalse_composed hx
  | choose hb hx hy => exact BoolVar.choose_composed hb hx hy
  | select hb hx hy => exact BoolVar.select_composed hb hx hy
  | switch hmask hvalues => exact BoolVar.switch_composed hmask hvalues
  | check hx => exact CircuitType.Composable.check_composed hx
  | assert64 hx => exact Expr.assert64_composed hx
  | assertWidth bits hx => exact Expr.assertWidth_composed bits hx
  | assertAtMost bound hx => exact Expr.assertAtMost_composed bound hx
  | halve hx => exact Expr.halve_composed hx
  | assertRange hx => exact Limbs.assertRange_composed hx
  | subLimbs modulus ha hb => exact Limbs.sub_composed modulus ha hb
  | assertLess bound hx => exact Limbs.assertLess_composed bound hx
  | addPoints hP hQ => exact PointVar.add_composed hP hQ
  | addFinite hP hQ => exact PointVar.addFinite_composed hP hQ
  | scaleUnpack count hP hs => exact PointVar.scaleUnpack_composed count hP hs
  | ofExpr hs => exact ScalarVar.ofExpr_composed hs
  | ofLimbs hs => exact ScalarVar.ofLimbs_composed hs
  | scalePoint hP hs => exact PointVar.scale_composed hP hs
  | scalePointShifted count hP ht => exact PointVar.scaleShifted_composed count hP ht
  | isZero hg => exact GroupVar.isZero_composed hg
  | add hg hh => exact GroupVar.add_composed hg hh
  | sub hg hh => exact GroupVar.sub_composed hg hh
  | scale hg hs => exact GroupVar.scale_composed hg hs
  | scaleShifted hg ht => exact GroupVar.scaleShifted_composed hg ht
  | assertEqualGroup hg hh => exact GroupVar.assertEqual_composed hg hh
  | isEqualGroup hg hh => exact GroupVar.isEqual_composed hg hh

end PallasCircuits
