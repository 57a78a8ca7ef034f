import PallasCircuits.Proofs.Extends
import PallasCircuits.Proofs.Nested
import PallasCircuits.Proofs.Proving

namespace PallasCircuits

variable {n : Nat} {σ α β : Type}

/-! Contexts are left the way they were entered. -/

/-- What opens a context: being entered, or the computation of a value. -/
inductive Level
  | entered (context : Context)
  | witnessing

namespace Level

def context (below : Context) : Level → Context
  | entered context => context
  | witnessing => { below with witnessing := true }

def top (contexts : List Context) : Context :=
  contexts.head?.getD default

/-- The contexts there are once the levels are open. The outermost level comes first. -/
def stack (contexts : List Context) : List Level → List Context
  | [] => contexts
  | level :: levels => stack (level.context (top contexts) :: contexts) levels

theorem stack_append (contexts : List Context) (outer inner : List Level) :
    stack contexts (outer ++ inner) = stack (stack contexts outer) inner := by
  induction outer generalizing contexts with
  | nil => rfl
  | cons level levels ih => exact ih _

theorem suffix_stack (contexts : List Context) (levels : List Level) :
    contexts <:+ stack contexts levels := by
  induction levels generalizing contexts with
  | nil => exact List.suffix_rfl
  | cons level levels ih => exact (List.suffix_cons _ contexts).trans (ih _)

end Level

def Run.opened (s : Run n σ) : List Level :=
  if s.eager then [] else [.witnessing]

theorem Run.contexts_inner (s : Run n σ) : s.inner.contexts = Level.stack s.contexts s.opened := by
  unfold inner opened
  split
  · rfl
  · rfl

theorem Run.contexts_leave {s t : Run n σ} {context : Context}
    (h : t.contexts = (s.enter context).contexts) :
    (t.leave s.contexts.length).contexts = s.contexts := by
  change t.contexts.drop (t.contexts.length - s.contexts.length) = s.contexts
  rw [h, enter, List.length_cons, Nat.add_sub_cancel_left]
  rfl

theorem Run.closed_contexts [Modulus n] :
    Builder.Closed (fun _ => True) fun s t : Run n σ => t.contexts = s.contexts where
  refl _ := rfl
  trans hst htu := htu.trans hst
  author _ _ := rfl
  within _ hst := contexts_leave hst
  record _ _ := rfl
  store _ _ := rfl
  allocate _ _ _ := rfl

namespace Builder

/-- What the library does to a run apart from its operations on expressions and values. -/
inductive Change {n : Nat} {σ : Type} : (α : Type) → Builder n σ α → Prop
  | allocate (count : Nat) : Change _ (allocate count)
  | store (values : List (Residue n)) : Change _ (store values)
  | supply (publicValues : List (Residue n)) : Change _ (supply publicValues)
  | publicInput {T V : Type} [CircuitType n T V] : Change T publicInput
  | witnessValues : Change _ witnessValues

variable [Modulus n]

theorem Change.contexts_eq {m : Builder n σ α} (hm : Change α m) :
    Preserves (fun s t => t.contexts = s.contexts) m fun _ => True := by
  have hclosed := Run.closed_contexts (n := n) (σ := σ)
  cases hm with
  | allocate count => exact .of_ok fun s => ⟨_, _, rfl, rfl, trivial⟩
  | store values => exact .of_ok fun s => ⟨_, _, rfl, rfl, trivial⟩
  | supply publicValues =>
      constructor
      · intro s u t hrun
        rw [(supply_eq_ok.mp hrun).2]
        exact ⟨rfl, trivial⟩
      · intro s fault t hrun
        rw [(supply_eq_error.mp hrun).2.2]
  | publicInput =>
      apply Preserves.bind hclosed (.get hclosed)
      intro s _
      split
      · exact .orAbort hclosed _
      · exact .throw hclosed .abort
  | witnessValues => exact .bind hclosed (.get hclosed) fun s _ => .orAbort hclosed s.witness?

theorem Nested.contexts_eq {m : Builder n σ α} (hm : Nested Change m) :
    Preserves (fun s t => t.contexts = s.contexts) m fun _ => True :=
  hm.preserves Run.closed_contexts Change.contexts_eq

/-- `C` has a hole for a computation, to which a run from `s` comes at `t`. The levels that are
open there, the outermost one first, have been opened since `s`. -/
inductive Site {n : Nat} [Modulus n] {σ γ : Type} :
    {α : Type} → (Builder n σ γ → Builder n σ α) → Run n σ → List Level → Run n σ → Prop
  | here {s : Run n σ} : Site (fun x => x) s [] s
  | first {α β : Type} {C : Builder n σ γ → Builder n σ α} {f : α → Builder n σ β}
      {s t : Run n σ} {levels : List Level} (h : Site C s levels t) :
      Site (fun x => C x >>= f) s levels t
  | next {α β : Type} {m : Builder n σ α} {C : α → Builder n σ γ → Builder n σ β}
      {s t u : Run n σ} {a : α} {levels : List Level} (hm : Nested Change m)
      (hrun : m s = .ok a u) (h : Site (C a) u levels t) :
      Site (fun x => m >>= fun a => C a x) s levels t
  | attempt {α : Type} {C : Builder n σ γ → Builder n σ α} {handler : Fault → Builder n σ α}
      {s t : Run n σ} {levels : List Level} (h : Site C s levels t) :
      Site (fun x => tryCatch (C x) handler) s levels t
  | recover {α : Type} {m : Builder n σ α} {C : Fault → Builder n σ γ → Builder n σ α}
      {s t u : Run n σ} {fault : Fault} {levels : List Level} (hm : Nested Change m)
      (hrun : m s = .error fault u) (h : Site (C fault) u levels t) :
      Site (fun x => tryCatch m fun fault => C fault x) s levels t
  | within {α : Type} {C : Builder n σ γ → Builder n σ α} {context : Context} {s t : Run n σ}
      {levels : List Level} (h : Site C (s.enter context) levels t) :
      Site (fun x => within context (C x)) s (.entered context :: levels) t
  | declare {C : Builder n σ γ → Builder n σ (List (Residue n))} {size : Nat} {s t : Run n σ}
      {levels : List Level} (hneeded : s.hasValues = true ∨ s.eager = true)
      (h : Site C s levels t) : Site (fun x => declare size (C x)) s levels t
  | introduce {T V : Type} [CircuitType n T V] {C : Builder n σ γ → Builder n σ V}
      {checked : Bool} {s t : Run n σ} {levels : List Level}
      (hneeded : s.hasValues = true ∨ s.eager = true) (h : Site C s.inner levels t) :
      Site (fun x => (introduce checked (C x) : Builder n σ T)) s (s.opened ++ levels) t

namespace Site

variable {γ : Type} {C : Builder n σ γ → Builder n σ α} {s t : Run n σ} {levels : List Level}

theorem contexts_eq (h : Site C s levels t) : t.contexts = Level.stack s.contexts levels := by
  induction h with
  | here => rfl
  | first _ ih => exact ih
  | next hm hrun _ ih => rw [ih, (hm.contexts_eq.ok hrun).1]
  | attempt _ ih => exact ih
  | recover hm hrun _ ih => rw [ih, hm.contexts_eq.error hrun]
  | within _ ih => exact ih
  | declare _ _ ih => exact ih
  | introduce _ _ ih => rw [ih, Run.contexts_inner, Level.stack_append]

/-- What is put into the hole runs at `t`, and nowhere else. -/
theorem congr (h : Site C s levels t) {x y : Builder n σ γ} (hxy : x t = y t) :
    C x s = C y s := by
  induction h with
  | here => exact hxy
  | first _ ih => exact bind_congr_apply (ih hxy)
  | @next α β m C s t u a levels _ hrun _ ih =>
      change (m >>= fun a => C a x) s = (m >>= fun a => C a y) s
      rw [bind_of_ok hrun, bind_of_ok hrun, ih hxy]
  | attempt _ ih => exact tryCatch_congr (ih hxy)
  | @recover α m C s t u fault levels _ hrun _ ih =>
      change tryCatch m (fun fault => C fault x) s = tryCatch m (fun fault => C fault y) s
      rw [tryCatch_of_error hrun, tryCatch_of_error hrun, ih hxy]
  | within _ ih => exact within_congr (ih hxy)
  | declare _ _ ih => exact declare_congr fun _ => ih hxy
  | introduce _ _ ih => exact introduce_congr fun _ => ih hxy

end Site

end Builder

open Builder in
/-- However an operation or a computation put together from them ends, the contexts are those it
found. Where it runs a computation that was passed to it, they are these, with one more for each
level that is open; in a lazy context, a value is computed in a context that is witnessing and
otherwise that of the level below. No such computation runs anywhere else. Values of futures are
computed where other values are. -/
theorem Run.contexts_restored [Modulus n] (s : Run n σ) :
    (∀ {α : Type} {m : Builder n σ α}, Nested Change m →
      (∀ a t, m s = .ok a t → t.contexts = s.contexts) ∧
        ∀ fault t, m s = .error fault t → t.contexts = s.contexts) ∧
    (∀ {α γ : Type} {C : Builder n σ γ → Builder n σ α} {levels : List Level} {t : Run n σ},
      Site C s levels t →
        t.contexts = Level.stack s.contexts levels ∧ s.contexts <:+ t.contexts ∧
        ∀ x y, x t = y t → C x s = C y s) ∧
    (∀ {α γ : Type} {C : Builder n σ γ → Builder n σ α} {outer : List Level} {t : Run n σ},
      Site C s (outer ++ [.witnessing]) t →
        t.context.witnessing = true ∧
        t.context.checked = (Level.top (Level.stack s.contexts outer)).checked ∧
        t.contexts = t.context :: Level.stack s.contexts outer) ∧
    (∀ {α : Type} {context : Context} {m m' : Builder n σ α},
      m (s.enter context) = m' (s.enter context) → within context m s = within context m' s) ∧
    ∀ {T V : Type} [CircuitType n T V],
      (∀ {checked : Bool} {value value' : Builder n σ V},
        (s.hasValues = true ∨ s.eager = true → value s.inner = value' s.inner) →
          (introduce checked value : Builder n σ T) s = introduce checked value' s) ∧
      (∀ {polls : Option Nat} {future future' : Future σ V},
        (s.hasValues = true ∨ s.eager = true →
          (future.await? polls).map (fun outcome => (authored outcome : Builder n σ V) s.inner) =
            (future'.await? polls).map fun outcome => authored outcome s.inner) →
          (witnessAsync polls future : Builder n σ (Option T)) s =
            witnessAsync polls future' s) ∧
      ∀ {polls : Option Nat} {future : Future σ V} {outcome : EStateM Fault σ V},
        future.await? polls = some outcome →
          (witnessAsync polls future : Builder n σ (Option T)) s =
            (some <$> introduce true (authored outcome) : Builder n σ (Option T)) s := by
  refine ⟨fun hm => ?_, fun h => ?_, fun {_ _ _ outer t} h => ?_, within_congr, fun {T V} _ => ?_⟩
  · exact ⟨fun a t hrun => (hm.contexts_eq.ok hrun).1, fun fault t => hm.contexts_eq.error⟩
  · exact ⟨h.contexts_eq, h.contexts_eq ▸ Level.suffix_stack s.contexts _, fun _ _ => h.congr⟩
  · have hcontexts := h.contexts_eq
    rw [Level.stack_append] at hcontexts
    have hcontext : t.context = Level.context _ .witnessing := congrArg Level.top hcontexts
    rw [hcontext]
    exact ⟨rfl, rfl, hcontexts⟩
  · exact ⟨introduce_congr, witnessAsync_congr, fun hready => witnessAsync_of_ready hready s⟩

def witnessRoot (root : Builder Pasta.p σ Fp) (x : Expr Pasta.p) :
    Builder Pasta.p σ (Expr Pasta.p) :=
  Builder.witness (Builder.within ⟨true, false⟩ do
    let y : Expr Pasta.p ← Builder.witness root
    let square ← y.square
    square.assertEqual x
    Builder.reading y.value)

theorem nested_witnessRoot {root : Builder Pasta.p σ Fp}
    (hroot : Builder.Nested Builder.Change root) (x : Expr Pasta.p) :
    Builder.Nested Builder.Change (witnessRoot root x) := by
  refine .introduce true (.within _ ?_) fun _ => .regular (.pure ())
  refine .bind (.introduce true hroot fun _ => .regular (.pure ())) fun y => ?_
  obtain ⟨j, hy⟩ := Expr.exists_below [y]
  refine .bind (.regular (.operation (.square (hy y List.mem_cons_self)))) fun square => ?_
  obtain ⟨k, hk⟩ := Expr.exists_below [square, x]
  obtain ⟨hsquare, hx⟩ := List.forall_mem_cons.mp hk
  exact .bind (.regular (.operation (.assertEqual hsquare (hx x List.mem_cons_self)))) fun _ =>
    .regular (.reading y.value)

theorem Run.contexts_restored_witnessRoot :
    ∃ s t u : Run Pasta.p Unit,
      witnessRoot (throw .abort) (.var 0) s = .error .abort t ∧ t.contexts = [⟨true, false⟩] ∧
      Builder.Site (fun root => witnessRoot root (.var 0)) s
        [.witnessing, .entered ⟨true, false⟩, .witnessing] u ∧
      u.contexts = [⟨true, true⟩, ⟨true, false⟩, ⟨true, true⟩, ⟨true, false⟩] ∧
      ∀ root, root u = .error .abort u → witnessRoot root (.var 0) s = .error .abort t := by
  let s : Run Pasta.p Unit := Run.proof [9] ()
  let r : Run Pasta.p Unit := s.inner.enter ⟨true, false⟩
  obtain ⟨hends, hsites, -⟩ := contexts_restored s
  have hfails : ∃ t, witnessRoot (throw .abort) (.var 0) s = .error .abort t := ⟨_, rfl⟩
  obtain ⟨t, hrun⟩ := hfails
  have hnested : Builder.Nested Builder.Change
      (witnessRoot (throw .abort) (.var 0) : Builder Pasta.p Unit _) :=
    nested_witnessRoot (.regular (.throw .abort)) (.var 0)
  have hsite : Builder.Site (fun root => witnessRoot root (.var 0)) s
      [.witnessing, .entered ⟨true, false⟩, .witnessing] r.inner :=
    .introduce (.inl rfl) (.within (.first (.introduce (.inl rfl) .here)))
  obtain ⟨hcontexts, -, hcongr⟩ := hsites hsite
  exact ⟨s, t, r.inner, hrun, (hends hnested).2 _ t hrun, hsite, hcontexts,
    fun root hroot => (hcongr root _ hroot).trans hrun⟩

end PallasCircuits
