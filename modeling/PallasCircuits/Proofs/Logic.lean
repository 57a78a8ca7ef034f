import PallasCircuits.Proofs.Computes

namespace PallasCircuits

open Builder

variable {n : Nat} [Modulus n] {σ : Type}

/-! Booleans compute what their names say as long as their inputs are bits, however many there
are and whichever of them are known. -/

namespace BoolVar

variable {ρ : Nat → Residue n} {b : BoolVar n} {xs : List (BoolVar n)}

def IsBit (ρ : Nat → Residue n) (b : BoolVar n) : Prop :=
  b.expr.eval ρ = 0 ∨ b.expr.eval ρ = 1

instance : Decidable (b.IsBit ρ) :=
  inferInstanceAs (Decidable (_ ∨ _))

def truth (ρ : Nat → Residue n) (b : BoolVar n) : Bool :=
  decide (b.expr.eval ρ = 1)

namespace IsBit

theorem means (hb : b.IsBit ρ) : b.Means ρ (b.truth ρ) := by
  unfold Means truth
  rcases hb with hzero | hone
  · simp [hzero, Residue.one_ne_zero.symm]
  · simp [hone]

theorem evals (hxs : ∀ x ∈ xs, x.IsBit ρ) :
    xs.map (·.expr.eval ρ) = (xs.map (truth ρ)).map .ofBool := by
  rw [List.map_map]
  exact List.map_congr_left fun x hx => (hxs x hx).means

theorem carries {s : Run n σ} (hb : b.IsBit s.assignment) (hbelow : b.expr.Below s.nextVar) :
    s.Carries b (b.truth s.assignment) :=
  Run.carries_bool.mpr (Run.carries_expr.mpr ⟨hbelow, hb.means⟩)

theorem carriesAll {s : Run n σ} (hbelow : ∀ e ∈ xs.map expr, e.Below s.nextVar)
    (hxs : ∀ x ∈ xs, x.IsBit s.assignment) :
    s.CarriesAll (xs.map expr) ((xs.map (truth s.assignment)).map .ofBool) where
  below := hbelow
  eval := by
    rw [List.map_map]
    exact evals hxs

end IsBit

end BoolVar

open BoolVar

/-- From `start` on, `m` computes a truth value from those of the bits `xs`. -/
def Run.ComputesBit (start : Run n σ) (m : Builder n σ (BoolVar n)) (xs : List (BoolVar n))
    (value : (BoolVar n → Bool) → Bool) : Prop :=
  start.Computes m (xs.map expr) (fun ρ => ∀ x ∈ xs, x.IsBit ρ)
    fun ρ => [.ofBool (value (truth ρ))]

namespace Run.ComputesBit

variable {start : Run n σ} {m : Builder n σ (BoolVar n)}

theorem of_list {xs : List (BoolVar n)} {f : List Bool → Bool} (hbuilds : Builds m fun _ => True)
    (hensures : ∀ ρ, Ensures ρ m fun z =>
      ∀ vs : List Bool, xs.map (·.expr.eval ρ) = vs.map .ofBool → z.Means ρ (f vs))
    (hproves : ∀ vs : List Bool, start.CarriesAll (xs.map expr) (vs.map .ofBool) →
      Proves start m fun t z => t.Carries z (f vs)) :
    start.ComputesBit m xs fun truth => f (xs.map truth) := by
  refine .of_specs hbuilds (fun ρ => ?_) fun hbelow hxs => hproves _ (IsBit.carriesAll hbelow hxs)
  refine (hensures ρ).mono fun z hz hxs => ?_
  rw [CircuitType.fields_bool, hz _ (IsBit.evals hxs)]

theorem of_pair {x y : BoolVar n} {f : Bool → Bool → Bool} (hbuilds : Builds m fun _ => True)
    (hensures : ∀ ρ, Ensures ρ m fun z =>
      ∀ u v, x.Means ρ u → y.Means ρ v → z.Means ρ (f u v))
    (hproves : ∀ u v, start.Carries x u → start.Carries y v →
      Proves start m fun t z => t.Carries z (f u v)) :
    start.ComputesBit m [x, y] fun truth => f (truth x) (truth y) := by
  refine .of_specs hbuilds (fun ρ => ?_) fun hbelow hxs => ?_
  · refine (hensures ρ).mono fun z hz hxs => ?_
    obtain ⟨hx, hy⟩ := List.forall_mem_cons.mp hxs
    rw [CircuitType.fields_bool, hz _ _ hx.means (List.forall_mem_singleton.mp hy).means]
  · obtain ⟨hx, hxs⟩ := carriesAll_cons.mp (IsBit.carriesAll hbelow hxs)
    obtain ⟨hy, -⟩ := carriesAll_cons.mp hxs
    exact hproves _ _ hx hy

end Run.ComputesBit

namespace BoolVar

variable [PastaPrime n]

theorem any_computes (start : Run n σ) {xs : List (BoolVar n)} (hlength : xs.length < n) :
    start.ComputesBit (any xs) xs fun truth => xs.any truth := by
  have hany : start.ComputesBit (any xs) xs fun truth => (xs.map truth).any id :=
    .of_list (f := (·.any id)) (any_builds xs) (fun ρ => any_ensures xs hlength)
      fun vs hxs => any_proves hxs hlength
  simpa only [List.any_map, Function.id_comp] using hany

theorem all_computes (start : Run n σ) {xs : List (BoolVar n)} (hlength : xs.length < n) :
    start.ComputesBit (all xs) xs fun truth => xs.all truth := by
  have hall : start.ComputesBit (all xs) xs fun truth => (xs.map truth).all id :=
    .of_list (f := (·.all id)) (all_builds xs) (fun ρ => all_ensures xs hlength)
      fun vs hxs => all_proves hxs hlength
  simpa only [List.all_map, Function.id_comp] using hall

/-- All operations on bits have the truth tables of their names, whether their inputs are known
or not. A list is only told apart by its sum if it is shorter than the modulus. -/
theorem logic_exact (start : Run n σ) :
    (∀ (x : BoolVar n) ρ, x.IsBit ρ → x.not.expr.eval ρ = .ofBool !x.truth ρ) ∧
    (∀ x y : BoolVar n,
      start.ComputesBit (x.and y) [x, y] (fun truth => truth x && truth y) ∧
      start.ComputesBit (x.or y) [x, y] (fun truth => truth x || truth y) ∧
      start.ComputesBit (x.xor y) [x, y] (fun truth => truth x ^^ truth y)) ∧
    ∀ xs : List (BoolVar n), xs.length < n →
      start.ComputesBit (any xs) xs (fun truth => xs.any truth) ∧
      start.ComputesBit (all xs) xs (fun truth => xs.all truth) := by
  refine ⟨fun x ρ hx => hx.means.not, fun x y => ⟨?_, ?_, ?_⟩, fun xs hlength =>
    ⟨any_computes start hlength, all_computes start hlength⟩⟩
  · exact .of_pair ((and_builds x y).mono fun _ _ => trivial) (fun ρ => and_ensures x y)
      fun u v => and_proves
  · exact .of_pair ((or_builds x y).mono fun _ _ => trivial) (fun ρ => or_ensures x y)
      fun u v => or_proves
  · exact .of_pair (xor_builds x y) (fun ρ => xor_ensures x y) fun u v => xor_proves

theorem logic_exact_three :
    (⟨.var 1⟩ : BoolVar Pasta.p).not.expr.eval
      (.proof [1, 0, 1] () : Run Pasta.p Unit).assignment = 1 ∧
    (∃ z u, BoolVar.xor ⟨.var 0⟩ ⟨.var 1⟩ (.proof [1, 0, 1] () : Run Pasta.p Unit) = .ok z u ∧
      u.Carries z true) ∧
    ∃ z u, all [⟨.var 0⟩, ⟨.var 1⟩, ⟨.var 2⟩] (.proof [1, 0, 1] () : Run Pasta.p Unit) =
      .ok z u ∧ u.Carries z false := by
  have hstart := Run.proving_proof ([1, 0, 1] : List Fp) ()
  obtain ⟨hnot, hpairs, hlists⟩ := logic_exact (.proof [1, 0, 1] () : Run Pasta.p Unit)
  obtain ⟨z, u, hz, -, hztrue⟩ := (hpairs ⟨.var 0⟩ ⟨.var 1⟩).2.2.honest hstart
    (by simp [Expr.Below, Run.proof, Run.start]) (by decide)
  obtain ⟨w, v, hw, -, hwfalse⟩ :=
    (hlists [⟨.var 0⟩, ⟨.var 1⟩, ⟨.var 2⟩] (by decide)).2.honest hstart
      (by simp [Expr.Below, Run.proof, Run.start]) (by decide)
  exact ⟨hnot ⟨.var 1⟩ _ (.inl rfl), ⟨z, u, hz, hztrue⟩, w, v, hw, hwfalse⟩

end BoolVar

end PallasCircuits
