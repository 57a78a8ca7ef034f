import PallasCircuits.Gadget.CurveGroup

namespace PallasCircuits.CircuitType

theorem mapM_eq_some_of_map_eq {α β : Type} {f : α → Option β} {xs : List α} {ys : List β}
    (h : xs.map f = ys.map some) : xs.mapM f = some ys := by
  induction xs generalizing ys with
  | nil =>
      rw [List.map_eq_nil_iff.mp h.symm]
      rfl
  | cons x xs ih =>
      obtain ⟨y, ys, rfl, hy, hys⟩ := List.map_eq_cons_iff.mp h.symm
      simp [← hy, ih hys.symm]

/-! Every type inside a circuit is as good as the list of its expressions. -/

/-- Lists of the right length and nothing else stand for values, whatever these carry along. -/
class Lawful (n : Nat) (T : Type) {V : outParam Type} [CircuitType n T V] : Prop where
  length_toExprs : ∀ x : T, (toExprs (n := n) x).length = size n T
  length_encode : ∀ v : V, (encode (n := n) T v).length = size n T
  exists_ofExprs? : ∀ (xs : List (Expr n)) (a : Aux n T), xs.length = size n T →
    ∃ x : T, ofExprs? xs a = some x ∧ toExprs x = xs ∧ aux x = a

class Plain (n : Nat) (T : Type) {V : outParam Type} [CircuitType n T V] : Prop where
  aux_eq : ∀ a b : Aux n T, a = b
  eq_of_toExprs_eq : ∀ {x y : T}, toExprs (n := n) x = toExprs y → x = y

variable {n : Nat} [Modulus n]

instance : Lawful n Unit where
  length_toExprs _ := rfl
  length_encode _ := rfl
  exists_ofExprs?
    | [], _, _ => ⟨(), rfl, rfl, rfl⟩

instance : Plain n Unit := ⟨fun _ _ => rfl, fun _ => rfl⟩

instance : Lawful n (Expr n) where
  length_toExprs _ := rfl
  length_encode _ := rfl
  exists_ofExprs?
    | [x], _, _ => ⟨x, rfl, rfl, rfl⟩

instance : Plain n (Expr n) where
  aux_eq _ _ := rfl
  eq_of_toExprs_eq := by
    rintro x y ⟨⟩
    rfl

instance : Lawful n (BoolVar n) where
  length_toExprs _ := rfl
  length_encode _ := rfl
  exists_ofExprs?
    | [x], _, _ => ⟨⟨x⟩, rfl, rfl, rfl⟩

instance : Plain n (BoolVar n) where
  aux_eq _ _ := rfl
  eq_of_toExprs_eq := by
    rintro ⟨x⟩ ⟨y⟩ ⟨⟩
    rfl

instance {k : Nat} : Lawful n (Vector (Expr n) k) where
  length_toExprs xs := xs.length_toList
  length_encode as := as.length_toList
  exists_ofExprs? xs _ h := by
    have hk : xs.length = k := h
    exact ⟨⟨xs.toArray, by simpa using hk⟩, dif_pos hk, rfl, rfl⟩

instance {k : Nat} : Plain n (Vector (Expr n) k) :=
  ⟨fun _ _ => rfl, Vector.toList_inj.mp⟩

instance : Lawful n (Coordinates (Expr n)) where
  length_toExprs _ := rfl
  length_encode _ := rfl
  exists_ofExprs?
    | [x, y], _, _ => ⟨⟨x, y⟩, rfl, rfl, rfl⟩

instance : Plain n (Coordinates (Expr n)) where
  aux_eq _ _ := rfl
  eq_of_toExprs_eq := by
    rintro ⟨x, y⟩ ⟨x', y'⟩ ⟨⟩
    rfl

instance : Lawful n (Limbs (Expr n)) where
  length_toExprs _ := rfl
  length_encode _ := rfl
  exists_ofExprs?
    | [lo, mid, hi], _, _ => ⟨⟨lo, mid, hi⟩, rfl, rfl, rfl⟩

instance : Plain n (Limbs (Expr n)) where
  aux_eq _ _ := rfl
  eq_of_toExprs_eq := by
    rintro ⟨lo, mid, hi⟩ ⟨lo', mid', hi'⟩ ⟨⟩
    rfl

instance : Lawful Pasta.p ScalarVar where
  length_toExprs _ := rfl
  length_encode _ := rfl
  exists_ofExprs?
    | [lo, hi], _, _ => ⟨⟨⟨lo⟩, hi⟩, rfl, rfl, rfl⟩

instance : Plain Pasta.p ScalarVar where
  aux_eq _ _ := rfl
  eq_of_toExprs_eq := by
    rintro ⟨⟨lo⟩, hi⟩ ⟨⟨lo'⟩, hi'⟩ ⟨⟩
    rfl

instance : Lawful Pasta.p GroupVar where
  length_toExprs _ := rfl
  length_encode _ := rfl
  exists_ofExprs?
    | [x, y], _, _ => ⟨⟨⟨x, y⟩⟩, rfl, rfl, rfl⟩

instance : Plain Pasta.p GroupVar where
  aux_eq _ _ := rfl
  eq_of_toExprs_eq := by
    rintro ⟨⟨x, y⟩⟩ ⟨⟨x', y'⟩⟩ ⟨⟩
    rfl

section

variable {T₁ T₂ V₁ V₂ : Type} [CircuitType n T₁ V₁] [CircuitType n T₂ V₂]

instance [Lawful n T₁] [Lawful n T₂] : Lawful n (T₁ × T₂) where
  length_toExprs x := by
    change (toExprs (n := n) x.1 ++ toExprs x.2).length = size n T₁ + size n T₂
    rw [List.length_append, Lawful.length_toExprs, Lawful.length_toExprs]
  length_encode v := by
    change (encode (n := n) T₁ v.1 ++ encode T₂ v.2).length = size n T₁ + size n T₂
    rw [List.length_append, Lawful.length_encode, Lawful.length_encode]
  exists_ofExprs? xs a h := by
    have hsize : xs.length = size n T₁ + size n T₂ := h
    obtain ⟨x₁, hx₁, htake, haux₁⟩ := Lawful.exists_ofExprs? (n := n) (T := T₁)
      (xs.take (size n T₁)) a.1 (by rw [List.length_take, hsize]; omega)
    obtain ⟨x₂, hx₂, hdrop, haux₂⟩ := Lawful.exists_ofExprs? (n := n) (T := T₂)
      (xs.drop (size n T₁)) a.2 (by rw [List.length_drop, hsize]; omega)
    refine ⟨(x₁, x₂), ?_, ?_, Prod.ext haux₁ haux₂⟩
    · simp only [ofExprs?, hsize, if_true, hx₁, hx₂]
      rfl
    · change toExprs x₁ ++ toExprs x₂ = xs
      rw [htake, hdrop, List.take_append_drop]

omit [Modulus n] in
theorem toExprs_eq_pair [Lawful n T₁] {x y : T₁ × T₂} (h : toExprs (n := n) x = toExprs y) :
    toExprs (n := n) x.1 = toExprs y.1 ∧ toExprs (n := n) x.2 = toExprs y.2 := by
  refine List.append_inj h ?_
  rw [Lawful.length_toExprs, Lawful.length_toExprs]

instance [Lawful n T₁] [Plain n T₁] [Plain n T₂] : Plain n (T₁ × T₂) where
  aux_eq a b := Prod.ext (Plain.aux_eq a.1 b.1) (Plain.aux_eq a.2 b.2)
  eq_of_toExprs_eq h :=
    have ⟨h₁, h₂⟩ := toExprs_eq_pair h
    Prod.ext (Plain.eq_of_toExprs_eq h₁) (Plain.eq_of_toExprs_eq h₂)

end

/-! ### Constant points -/

theorem constantValue?_point {P : Coordinates (Expr n)} {A : Coordinates (Residue n)} :
    constantValue? (n := n) P = some A ↔
      P.x.toConstant? = some A.x ∧ P.y.toConstant? = some A.y := by
  simp only [constantValue?, toExprs, Coordinates.toList, List.mapM_cons, List.mapM_nil,
    Option.pure_def, Option.bind_eq_bind, Option.bind_some, Option.bind_eq_some_iff]
  constructor
  · rintro ⟨_, ⟨x, hx, _, ⟨y, hy, ⟨⟩⟩, ⟨⟩⟩, ⟨⟩⟩
    exact ⟨hx, hy⟩
  · rintro ⟨hx, hy⟩
    exact ⟨_, ⟨A.x, hx, _, ⟨A.y, hy, rfl⟩, rfl⟩, rfl⟩

theorem constantValue?_group (g : GroupVar) :
    constantValue? (n := Pasta.p) g =
      (constantValue? (n := Pasta.p) g.point).map Pallas.ofCoordinates := by
  simp only [constantValue?, toExprs, Coordinates.toList, List.mapM_cons, List.mapM_nil]
  cases g.point.x.toConstant? with
  | none => rfl
  | some x =>
      cases g.point.y.toConstant? with
      | none => rfl
      | some y => rfl

end PallasCircuits.CircuitType
