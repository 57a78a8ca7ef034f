import PallasCircuits.Proofs.Curve.DoubleAndAdd
import PallasCircuits.Proofs.Gadget.PointScaling

namespace PallasCircuits

open Builder Coordinates

variable {σ : Type}

/-! No prover can make a circuit accept anything but the right multiple of a point. -/

namespace PointVar

/-- Every setup of a multiplication by a field element succeeds, and any values that satisfy
its constraints make the result the multiple by the canonical representative, `(0, 0)` being
the point at infinity. -/
theorem scale_eq_nsmul (P : PointVar Pasta.p) (s : Expr Pasta.p) {start : Run Pasta.p σ}
    (hstart : start.Recording) :
    (start.hasValues = false → ∃ R t, scale P s start = .ok R t) ∧
    ∀ R t, scale P s start = .ok R t →
      ∀ ρ : Nat → Fp, (∀ c ∈ start.recordedSince t, c.Holds ρ) →
      ∀ A : Pallas.Point, A ≠ 0 → P.eval ρ = ofPoint A →
        R.eval ρ = ofPoint ((s.eval ρ).val • A) := by
  constructor
  · intro hvalues
    obtain ⟨R, t, hrun, -⟩ := scale_builds P s start ⟨hstart, hvalues⟩
    exact ⟨R, t, hrun⟩
  · intro R t hrun ρ hholds A hA hP
    have hlocates : (P.eval ρ).Locates A := by
      rw [hP]
      exact locates_ofPoint hA
    exact (scale_ensures P s).of_recordedSince hstart hrun hholds A hlocates

private def assignment (values : List Nat) (i : Nat) : Fp :=
  (values.getD i 0 : Nat)

private theorem assignment_digit (before after : List Nat) (k : Nat) {i : Nat} (hi : i < 255) :
    assignment (before ++ (Binary.digits 255 k).map Bool.toNat ++ after) (before.length + i) =
      .ofBool (k.testBit i) := by
  have hlength : i < ((Binary.digits 255 k).map Bool.toNat).length := by
    rwa [List.length_map, Binary.length_digits]
  rw [assignment, List.append_assoc, List.getD_eq_getElem?_getD,
    List.getElem?_append_right (Nat.le_add_right _ _), Nat.add_sub_cancel_left,
    List.getElem?_append_left hlength, List.getElem?_eq_getElem hlength, Option.getD_some,
    List.getElem_map, Residue.natCast_toNat]
  simp [Binary.digits]

private def isMultiple (ρ : Nat → Fp) (first : Nat) (scalar : Nat) (result : Coordinates Fp) :
    Constraint Pasta.p → Bool
  | .scaling gate =>
      gate.base.eval ρ = Pallas.generator.toCoordinates ∧ gate.scalar.eval ρ = (scalar : Fp) ∧
        gate.bits = (List.range 255).map (fun i => .var (first + i)) ∧
        gate.result.eval ρ = result
  | _ => false

/-- The multiple is that of the group, so that no double-and-add has to be carried out. -/
private theorem holds_of_isMultiple {ρ : Nat → Fp} {first scalar : Nat} {result : Coordinates Fp}
    (hdigits : ∀ i < 255, ρ (first + i) = .ofBool (scalar.testBit i)) {G : Pallas.Point}
    (hG : Pallas.generator.Represents G) (hne : G ≠ 0) (hscalar : scalar < 2 ^ 254)
    (hgeneric : scalar ≠ degenerateHigh ∧ scalar ≠ degenerateHigh - 1 ∧ scalar ≠ tripleHigh)
    (hresult : ofPoint ((2 * scalar + 1 + 2 ^ 255) • G) = result) (c : Constraint Pasta.p)
    (hc : isMultiple ρ first scalar result c = true) : c.Holds ρ := by
  cases c with
  | scaling gate =>
      obtain ⟨hbase, hvalue, hbits, hmultiple⟩ := of_decide_eq_true hc
      have hof : Binary.ofDigits (Binary.digits 255 scalar) = scalar := by
        rw [Binary.ofDigits_digits, Binary.twoPow_eq, Nat.mod_eq_of_lt (by omega)]
      refine (Constraint.holds_scaling ρ gate).mpr ⟨Binary.digits 255 scalar, ?_, ?_, ?_⟩
      · rw [hbits, Binary.digits, List.map_map, List.map_map]
        exact List.map_congr_left fun i hi => hdigits i (List.mem_range.mp hi)
      · rw [hvalue, hof]
      · rw [hbase, hG.toCoordinates, (DoubleAndAdd.doubleAndAdd?_eq_some hne hscalar hgeneric).2,
          hresult, hmultiple]
  | _ => cases hc

private def scaleValues : List Nat :=
  [1, 12418654782883325593414442427049395787963493412651469444558597405572177144507, 5, 1, 2,
    2, 0, 2, 0, 0, 0, 0, 2305843009213693952, 0,
    8846171759952873164373615234413218048208320744512248276920516878386762396493, 0, 0, 0, 0,
    23158417847463239084714197001737581570690445185553248572763741411479974104270,
    45560315531506369815346746415080538115, 0,
    14474011154664524427946373126085988481681528240970780357977338382174983815169,
    45560315531506369815346746415080538115,
    2043704922874314040385013091576698457103021424623870194379792173147242419946,
    5363959817269906935062331974892998553523781697031104933152007068461890921147] ++
  (Binary.digits 255 45560315531506369815346746415080538115).map Bool.toNat ++
  [0, 0, 0, 5743875972615301055327873003541526026620388313794386009397582314339534608951,
    14324708546311929315254951232823324975792212326732732847226479520488791052699,
    13674052893533788831980328743600864118282807413603077104721359452994858160120,
    19852678811144613805416595923306213956178557175328596727790601720338647801972,
    16529367526445723262478303825122581175399563069290091271396079358777790485830,
    2043704922874314040385013091576698457103021424623870194379792173147242419946,
    5363959817269906935062331974892998553523781697031104933152007068461890921147, 1,
    12418654782883325593414442427049395787963493412651469444558597405572177144507,
    2043704922874314040385013091576698457103021424623870194379792173147242419946,
    5363959817269906935062331974892998553523781697031104933152007068461890921147]

private theorem exists_scaleValues :
    ∃ R t, scale ⟨.var 0, .var 1⟩ (.var 2) (Run.start 3 true () : Run Pasta.p Unit) = .ok R t ∧
      ∀ c ∈ (Run.start 3 true ()).recordedSince t, c.Holds (assignment scaleValues) := by
  obtain ⟨G, hG, hne⟩ := Pallas.exists_generator
  have hresult : ofPoint ((2 * 45560315531506369815346746415080538115 + 1 + 2 ^ 255) • G) =
      ⟨assignment scaleValues 24, assignment scaleValues 25⟩ := by
    have horder : 2 * 45560315531506369815346746415080538115 + 1 + 2 ^ 255 = 5 + Pasta.q * 2 := by
      decide
    rw [horder, Pallas.nsmul_add_order, ← (hG.scale 5).toCoordinates]
    decide +kernel
  have hdigits : ∀ i < 255, assignment scaleValues (26 + i) = _ := fun i =>
    assignment_digit _ _ 45560315531506369815346746415080538115
  exact exists_of_satisfiedUpTo
    (holds_of_isMultiple hdigits hG hne (by decide) (by decide +kernel) hresult)
    (by decide +kernel)

theorem scale_eq_nsmul_generator :
    ∃ (R : PointVar Pasta.p) (t : Run Pasta.p Unit) (G : Pallas.Point), G ≠ 0 ∧
      scale ⟨.var 0, .var 1⟩ (.var 2) (Run.start 3 true ()) = .ok R t ∧
      R.eval (assignment scaleValues) = ofPoint (5 • G) := by
  obtain ⟨R, t, hrun, hholds⟩ := exists_scaleValues
  obtain ⟨G, hG, hne⟩ := Pallas.exists_generator
  have hP : eval (assignment scaleValues) ⟨.var 0, .var 1⟩ = ofPoint G := by
    rw [← hG.toCoordinates]
    decide +kernel
  have hs : (Expr.eval (assignment scaleValues) (.var 2)).val = 5 := by
    decide +kernel
  have hscale := (scale_eq_nsmul ⟨.var 0, .var 1⟩ (.var 2) ⟨rfl, rfl⟩).2 R t hrun
    (assignment scaleValues) hholds G hne hP
  rw [hs] at hscale
  exact ⟨R, t, G, hne, hrun, hscale⟩

/-- Any values that satisfy the constraints of a multiplication by a shifted scalar, of
which not everything is constant, keep the high part within `count` digits and make the
result the multiple. Setups succeed unless a constant high part is seen not to fit. -/
theorem scaleShifted_eq_nsmul (P : PointVar Pasta.p) (s : ScalarVar) {count : Nat}
    (hcount : count ≤ highBits)
    (hvar : CircuitType.constantValue? (n := Pasta.p) P = none ∨
      CircuitType.constantValue? (n := Pasta.p) s = none)
    {start : Run Pasta.p σ} (hstart : start.Recording) :
    (start.hasValues = false →
      (count < Binary.width degenerateHigh → ∀ a, s.hi.toConstant? = some a →
        a.val ≠ degenerateHigh ∧ a.val ≠ degenerateHigh - 1) →
      ∃ R t, scaleShifted P s count start = .ok R t) ∧
    ∀ R t, scaleShifted P s count start = .ok R t →
      ∀ ρ : Nat → Fp, (∀ c ∈ start.recordedSince t, c.Holds ρ) →
      ∀ A : Pallas.Point, A ≠ 0 → P.eval ρ = ofPoint A →
      s.lo.expr.eval ρ = 0 ∨ s.lo.expr.eval ρ = 1 →
        (s.hi.eval ρ).val < 2 ^ count ∧
        R.eval ρ =
          ofPoint ((2 * (s.hi.eval ρ).val + (s.lo.expr.eval ρ).val + 2 ^ 255) • A) := by
  constructor
  · intro hvalues hhi
    obtain ⟨R, t, hrun, -⟩ := scaleShifted_builds P s hcount hhi start ⟨hstart, hvalues⟩
    exact ⟨R, t, hrun⟩
  · intro R t hrun ρ hholds A hA hP hlo
    rw [scaleShifted_of_var hcount hvar] at hrun
    have hlocates : (P.eval ρ).Locates A := by
      rw [hP]
      exact locates_ofPoint hA
    obtain ⟨v, hv⟩ := BoolVar.exists_means hlo.symm
    rw [hv, Residue.val_ofBool]
    exact (scaleShiftedVar_ensures P s hcount).of_recordedSince hstart hrun hholds A v hlocates hv

private def scaleShiftedValues : List Nat :=
  [1, 12418654782883325593414442427049395787963493412651469444558597405572177144507, 1, 6, 0,
    920488701058429755738799064386696784635872598800848826431851395449976586163, 0,
    24838695768680377177908755487355521202582137296422337371125106127784821625189, 1, 6,
    8407890559853124651143296069453433134027721617742592547309707760814189114327,
    16834704042675085594969268534987939598782924277763323342592930648860345007965] ++
  (Binary.digits 255 6).map Bool.toNat ++
  [16529367526445723262478303825122581175399563069290091271396079358777790485830,
    8407890559853124651143296069453433134027721617742592547309707760814189114327,
    16834704042675085594969268534987939598782924277763323342592930648860345007965, 0, 0, 0,
    26381389396462619836722728311719669243171541827902972182991041879492304867499,
    7060917577333875031179022214277999649108381853351606153023320504758710433738,
    4671504468125548044825182439296793325512671706113359493072027123928395405248,
    23251372412681577809968103524769817538541598640927828852631620644327671393407,
    16529367526445723262478303825122581175399563069290091271396079358777790485830,
    4671504468125548044825182439296793325512671706113359493072027123928395405248,
    23251372412681577809968103524769817538541598640927828852631620644327671393407,
    8407890559853124651143296069453433134027721617742592547309707760814189114327,
    16834704042675085594969268534987939598782924277763323342592930648860345007965]

private theorem exists_scaleShiftedValues :
    ∃ R t, scaleShifted ⟨.var 0, .var 1⟩ ⟨⟨.var 2⟩, .var 3⟩ 3
        (Run.start 4 true () : Run Pasta.p Unit) = .ok R t ∧
      ∀ c ∈ (Run.start 4 true ()).recordedSince t, c.Holds (assignment scaleShiftedValues) := by
  obtain ⟨G, hG, hne⟩ := Pallas.exists_generator
  have hresult : ofPoint ((2 * 6 + 1 + 2 ^ 255) • G) =
      ⟨assignment scaleShiftedValues 10, assignment scaleShiftedValues 11⟩ := by
    have horder : 2 * 6 + 1 + 2 ^ 255 + (2 * degenerateHigh - 13) = 0 + Pasta.q * 2 := by
      decide
    have hopposite : (2 * 6 + 1 + 2 ^ 255) • G = -((2 * degenerateHigh - 13) • G) := by
      rw [eq_neg_iff_add_eq_zero, ← add_nsmul, horder, Pallas.nsmul_add_order, zero_nsmul]
    rw [hopposite, ofPoint_neg, ← (hG.scale _).toCoordinates]
    decide +kernel
  have hdigits : ∀ i < 255, assignment scaleShiftedValues (12 + i) = _ := fun i =>
    assignment_digit _ _ 6
  exact exists_of_satisfiedUpTo
    (holds_of_isMultiple hdigits hG hne (by decide) (by decide +kernel) hresult)
    (by decide +kernel)

theorem scaleShifted_eq_nsmul_generator :
    ∃ (R : PointVar Pasta.p) (t : Run Pasta.p Unit) (G : Pallas.Point), G ≠ 0 ∧
      scaleShifted ⟨.var 0, .var 1⟩ ⟨⟨.var 2⟩, .var 3⟩ 3 (Run.start 4 true ()) = .ok R t ∧
      R.eval (assignment scaleShiftedValues) = ofPoint ((2 * 6 + 1 + 2 ^ 255) • G) := by
  obtain ⟨R, t, hrun, hholds⟩ := exists_scaleShiftedValues
  obtain ⟨G, hG, hne⟩ := Pallas.exists_generator
  have hP : eval (assignment scaleShiftedValues) ⟨.var 0, .var 1⟩ = ofPoint G := by
    rw [← hG.toCoordinates]
    decide +kernel
  have hhi : (Expr.eval (assignment scaleShiftedValues) (.var 3)).val = 6 := by
    decide +kernel
  have hlo : Expr.eval (assignment scaleShiftedValues) (.var 2) = 1 := by
    decide +kernel
  have hscale := (scaleShifted_eq_nsmul ⟨.var 0, .var 1⟩ ⟨⟨.var 2⟩, .var 3⟩ (by decide)
    (.inl rfl) ⟨rfl, rfl⟩).2 R t hrun (assignment scaleShiftedValues) hholds G hne hP (.inr hlo)
  simp only [hhi, hlo, Residue.val_one] at hscale
  exact ⟨R, t, G, hne, hrun, hscale.2⟩

end PointVar

end PallasCircuits
