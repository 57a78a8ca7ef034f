import PallasCircuits.Proofs.Contexts
import PallasCircuits.Proofs.Reached

namespace PallasCircuits

open Builder

variable {n : Nat} {σ α : Type}

/-! Runs that are supplied with public inputs again and again. -/

def Expr.vars (first count : Nat) : List (Expr n) :=
  (List.range count).map fun i => .var (first + i)

theorem Expr.length_vars (first count : Nat) :
    (vars first count : List (Expr n)).length = count := by
  rw [vars, List.length_map, List.length_range]

inductive Builder.Storing {n : Nat} {σ : Type} : (α : Type) → Builder n σ α → Prop
  | store (values : List (Residue n)) : Storing _ (store values)

namespace Run

/-- `t` is `s` with these values stored for fresh variables. -/
structure Stores (s : Run n σ) (values : List (Residue n)) (t : Run n σ) : Prop where
  hasValues : t.hasValues = s.hasValues
  contexts : t.contexts = s.contexts
  publicSize : t.publicSize = s.publicSize
  publicValues : t.publicValues = s.publicValues
  privateValues : t.privateValues.toList = s.privateValues.toList ++ values
  nextVar : t.nextVar = s.nextVar + values.length

def storedSince (s t : Run n σ) : List (Residue n) :=
  t.privateValues.toList.drop s.privateValues.size

namespace Stores

variable {s t u : Run n σ} {values values' : List (Residue n)}

theorem refl (s : Run n σ) : s.Stores [] s :=
  ⟨rfl, rfl, rfl, rfl, (List.append_nil _).symm, rfl⟩

theorem trans (hst : s.Stores values t) (htu : t.Stores values' u) :
    s.Stores (values ++ values') u where
  hasValues := htu.hasValues.trans hst.hasValues
  contexts := htu.contexts.trans hst.contexts
  publicSize := htu.publicSize.trans hst.publicSize
  publicValues := htu.publicValues.trans hst.publicValues
  privateValues := by rw [htu.privateValues, hst.privateValues, List.append_assoc]
  nextVar := by rw [htu.nextVar, hst.nextVar, List.length_append, Nat.add_assoc]

theorem store (s : Run n σ) (values : List (Residue n)) :
    s.Stores values { s with
      nextVar := s.nextVar + values.length
      privateValues := s.privateValues ++ values } :=
  ⟨rfl, rfl, rfl, rfl, Array.toList_appendList, rfl⟩

theorem storedSince_eq (h : s.Stores values t) : s.storedSince t = values := by
  unfold storedSince
  rw [h.privateValues, ← Array.length_toList, List.drop_left]

theorem eager_eq (h : s.Stores values t) : t.eager = s.eager := by
  unfold eager context
  rw [h.contexts]

theorem leave {context : Context} (h : (s.enter context).Stores values t) :
    s.Stores values (t.leave s.contexts.length) :=
  ⟨h.hasValues, contexts_leave h.contexts, h.publicSize, h.publicValues, h.privateValues,
    h.nextVar⟩

end Stores

variable [Modulus n]

theorem closed_stores : Closed (fun _ => True) fun s t : Run n σ =>
    s.hasValues = true → ∃ values, s.Stores values t where
  refl s _ := ⟨[], .refl s⟩
  trans hst htu hs := by
    obtain ⟨values, hst⟩ := hst hs
    obtain ⟨values', htu⟩ := htu (hst.hasValues.trans hs)
    exact ⟨values ++ values', hst.trans htu⟩
  author s author _ := ⟨[], rfl, rfl, rfl, rfl, (List.append_nil _).symm, rfl⟩
  within _ hst hs := by
    obtain ⟨values, hst⟩ := hst hs
    exact ⟨values, hst.leave⟩
  record _ _ _ := ⟨[], rfl, rfl, rfl, rfl, (List.append_nil _).symm, rfl⟩
  store {s} values _ _ := ⟨values, .store s values⟩
  allocate _ _ hvalueless hs := by
    rw [hs] at hvalueless
    cases hvalueless

end Run

namespace Builder

theorem Storing.stores {m : Builder n σ α} (hm : Storing α m) :
    Preserves (fun s t => s.hasValues = true → ∃ values, s.Stores values t) m fun _ => True := by
  cases hm with
  | store values =>
      exact .of_ok fun s => ⟨_, _, rfl, fun _ => ⟨values, .store s values⟩, trivial⟩

variable [Modulus n]

theorem Nested.stores {m : Builder n σ α} (hm : Nested Storing m) :
    Preserves (fun s t => s.hasValues = true → ∃ values, s.Stores values t) m fun _ => True :=
  hm.preserves Run.closed_stores Storing.stores

end Builder

namespace Run

/-- Of the values stored on the way from `s` to `t`, these belong to the variables `xs`. -/
def Creates (s : Run n σ) (xs : List (Expr n)) (values : List (Residue n)) (t : Run n σ) : Prop :=
  ∃ before after, s.storedSince t = before ++ values ++ after ∧
    xs = Expr.vars (s.nextVar + before.length) values.length

variable {s t : Run n σ}

theorem creates_store {values : List (Residue n)} {xs : List (Expr n)}
    (hrun : store values s = .ok xs t) : s.Creates xs values t := by
  cases hrun
  refine ⟨[], [], ?_, rfl⟩
  rw [(Stores.store s values).storedSince_eq, List.append_nil, List.nil_append]

/-- What a run of a series consists of: the variables are counted from the public inputs on,
while the values of all the runs are kept. -/
structure Resupplied (size : Nat) (earlier input stored : List (Residue n)) (s : Run n σ) :
    Prop where
  hasValues : s.hasValues = true
  publicSize : s.publicSize = size
  publicValues : s.publicValues = input.toArray
  length_input : input.length = size
  privateValues : s.privateValues.toList = earlier ++ stored
  nextVar : s.nextVar = size + stored.length

namespace Resupplied

variable {size : Nat} {earlier input stored values : List (Residue n)}

theorem stores (h : s.Resupplied size earlier input stored) (hst : s.Stores values t) :
    t.Resupplied size earlier input (stored ++ s.storedSince t) where
  hasValues := hst.hasValues.trans h.hasValues
  publicSize := hst.publicSize.trans h.publicSize
  publicValues := hst.publicValues.trans h.publicValues
  length_input := h.length_input
  privateValues := by
    rw [hst.storedSince_eq, hst.privateValues, h.privateValues, List.append_assoc]
  nextVar := by
    rw [hst.storedSince_eq, hst.nextVar, h.nextVar, List.length_append, Nat.add_assoc]

theorem of_supply (hpublic : s.publicSize = size)
    (hprivate : s.privateValues.toList = earlier) (hrun : supply input s = .ok () t) :
    t.Resupplied size earlier input [] := by
  obtain ⟨hlength, rfl⟩ := supply_eq_ok.mp hrun
  exact ⟨rfl, hpublic, rfl, hlength.trans hpublic, hprivate.trans (List.append_nil earlier).symm,
    hpublic⟩

theorem lookup_eq (h : s.Resupplied size earlier input stored) (i : Nat) :
    s.lookup (size + i) = (earlier ++ stored)[i]? := by
  unfold lookup
  rw [h.publicSize, if_neg (Nat.not_lt.mpr (Nat.le_add_right size i)), Nat.add_sub_cancel_left,
    ← Array.getElem?_toList, h.privateValues]

theorem witnessValues_eq (h : s.Resupplied size earlier input stored) :
    witnessValues s = .ok (input ++ (earlier ++ stored).take stored.length) s := by
  have hvalues : s.values = input ++ (earlier ++ stored) := by
    rw [values, h.publicValues, h.privateValues]
  have hsize : s.publicValues.size = s.publicSize := by
    rw [h.publicValues, h.publicSize, List.size_toArray, h.length_input]
  have hle : s.nextVar ≤ s.values.length := by
    rw [hvalues, h.nextVar, List.length_append, List.length_append, h.length_input]
    omega
  rw [witnessValues, get_bind_apply, witness?_eq_take hsize hle, orAbort_some, pure_apply, hvalues,
    h.nextVar, ← h.length_input, List.take_length_add_append]

end Resupplied

variable [Modulus n]

theorem creates_declare {count : Nat} {values : Builder n σ (List (Residue n))}
    (hvalues : Nested Storing values) (hs : s.hasValues = true) (hlazy : s.eager = false)
    {xs : List (Expr n)} (hrun : declare count values s = .ok xs t) :
    ∃ vs u before, values s = .ok vs u ∧ vs.length = count ∧ s.Stores (before ++ vs) t ∧
      xs = Expr.vars (s.nextVar + before.length) vs.length := by
  rw [declare_of_values (.inl hs)] at hrun
  obtain ⟨vs, u, hcomputed, hplaced⟩ := bind_eq_ok.mp hrun
  obtain ⟨before, hsu⟩ := (hvalues.stores.ok hcomputed).1 hs
  split at hplaced
  · cases hplaced
  · next hlength =>
      rw [get_bind_apply, hsu.eager_eq, hlazy, if_neg Bool.false_ne_true] at hplaced
      cases hplaced
      refine ⟨vs, u, before, hcomputed, Decidable.not_not.mp hlength,
        hsu.trans (.store u vs), ?_⟩
      rw [← hsu.nextVar]
      rfl

theorem creates_introduce {T V : Type} [CircuitType n T V] [CircuitType.Lawful n T]
    {checked : Bool} {value : Builder n σ V} (hvalue : Nested Storing value)
    (hcheck : ∀ x : T, Nested Storing (CircuitType.check (n := n) x : Builder n σ Unit))
    (hs : s.hasValues = true) (hlazy : s.eager = false) {x : T}
    (hrun : introduce checked value s = .ok x t) :
    ∃ v u, value s.inner = .ok v u ∧
      s.Creates (CircuitType.toExprs x) (CircuitType.encode T v) t := by
  rw [introduce_of_lazy hlazy] at hrun
  obtain ⟨⟨exprs, aux⟩, r, hdeclared, hfinish⟩ := bind_eq_ok.mp hrun
  have hencode : Nested Storing
      (encoded T (witnessing value) >>= fun r => pure r.1 : Builder n σ _) :=
    .bind (.bind (.bind (.regular .get) fun _ => .within _ hvalue) fun _ => .regular (.pure _))
      fun _ => .regular (.pure _)
  have hdeclare := bind_of_ok (f := fun r => pure r.1) hdeclared
  rw [fst_declareWith] at hdeclare
  obtain ⟨vs, u, before, hcomputed, hlength, hsr, rfl⟩ := creates_declare hencode hs hlazy hdeclare
  have hlist := Expr.length_vars (n := n) (s.nextVar + before.length) vs.length
  obtain ⟨_, _, hencoded, hreturn⟩ := bind_eq_ok.mp hcomputed
  cases hreturn
  obtain ⟨v, w, hwitnessed, hreturn⟩ := bind_eq_ok.mp hencoded
  cases hreturn
  obtain ⟨r', hcomputed, -⟩ := within_eq_ok.mp hwitnessed
  obtain ⟨y, hy, hexprs, -⟩ := CircuitType.Lawful.exists_ofExprs? (T := T) _
    (aux.getD CircuitType.setupAux) (hlist.trans hlength)
  rw [hy, orAbort_some, pure_bind_apply] at hfinish
  obtain ⟨_, t', hchecked, hreturn⟩ := bind_eq_ok.mp hfinish
  cases hreturn
  have hnested : Nested Storing
      (if checked then CircuitType.check (n := n) x else pure () : Builder n σ Unit) := by
    split
    · exact hcheck x
    · exact .regular (.pure ())
  obtain ⟨after, hrt⟩ := (hnested.stores.ok hchecked).1 (hsr.hasValues.trans hs)
  refine ⟨v, r', ?_, before, after, (hsr.trans hrt).storedSince_eq, hexprs⟩
  rw [Run.inner, hlazy, if_neg Bool.false_ne_true]
  exact hcomputed

/-- A series of proving runs on one state, each of which starts with public inputs and goes on
with any computations that may store values, failed ones included. `earlier` are the values that
were stored in the runs before the current one, and `stored` are those stored in this one, which
was supplied with `input`. -/
inductive Series (s₀ : Run n σ) : (earlier input stored : List (Residue n)) → Run n σ → Prop
  | first {input : List (Residue n)} {s : Run n σ} (hrun : supply input s₀ = .ok () s) :
      Series s₀ [] input [] s
  | next {earlier input stored input' : List (Residue n)} {s t : Run n σ}
      (h : Series s₀ earlier input stored s) (hrun : supply input' s = .ok () t) :
      Series s₀ (earlier ++ stored) input' [] t
  | ok {earlier input stored : List (Residue n)} {s t : Run n σ} {α : Type} {m : Builder n σ α}
      {a : α} (h : Series s₀ earlier input stored s) (hm : Nested Storing m)
      (hrun : m s = .ok a t) : Series s₀ earlier input (stored ++ s.storedSince t) t
  | error {earlier input stored : List (Residue n)} {s t : Run n σ} {α : Type}
      {m : Builder n σ α} {fault : Fault} (h : Series s₀ earlier input stored s)
      (hm : Nested Storing m) (hrun : m s = .error fault t) :
      Series s₀ earlier input (stored ++ s.storedSince t) t

theorem Series.resupplied {size : Nat} {recording : Bool} {author : σ}
    {earlier input stored : List (Residue n)}
    (h : Series (start size recording author) earlier input stored s) :
    s.Resupplied size earlier input stored := by
  induction h with
  | first hrun => exact .of_supply rfl rfl hrun
  | next h hrun ih => exact .of_supply ih.publicSize ih.privateValues hrun
  | ok h hm hrun ih =>
      obtain ⟨values, hst⟩ := (hm.stores.ok hrun).1 ih.hasValues
      exact ih.stores hst
  | error h hm hrun ih =>
      obtain ⟨values, hst⟩ := hm.stores.error hrun ih.hasValues
      exact ih.stores hst

/-- The current run of a series counts its variables from the public inputs on. What it reads for
them, and what it returns for them in the witness, are the first of all the values that have ever
been stored, so that these are the values that it has stored itself exactly if they repeat those
of the runs before. They always are in the first run. -/
theorem Series.reads_back_iff {size : Nat} {recording : Bool} {author : σ}
    {earlier input stored : List (Residue n)}
    (h : Series (start size recording author) earlier input stored s) :
    s.nextVar = size + stored.length ∧
    (∀ i < stored.length, s.lookup (size + i) = (earlier ++ stored)[i]?) ∧
    witnessValues s = .ok (input ++ (earlier ++ stored).take stored.length) s ∧
    ((∀ i < stored.length, s.lookup (size + i) = stored[i]?) ↔ stored <+: earlier ++ stored) ∧
    (witnessValues s = .ok (input ++ stored) s ↔ stored <+: earlier ++ stored) ∧
    (∀ {values xs t}, store values s = .ok xs t → s.Creates xs values t) ∧
    (s.eager = false → ∀ {count : Nat} {values : Builder n σ (List (Residue n))} {xs t},
      Nested Storing values → declare count values s = .ok xs t →
        ∃ vs u, values s = .ok vs u ∧ vs.length = count ∧ s.Creates xs vs t) ∧
    (s.eager = false → ∀ {T V : Type} [CircuitType n T V] [CircuitType.Lawful n T]
      {checked : Bool} {value : Builder n σ V} {x : T} {t}, Nested Storing value →
        (∀ x : T, Nested Storing (CircuitType.check (n := n) x : Builder n σ Unit)) →
          introduce checked value s = .ok x t →
            ∃ v u, value s.inner = .ok v u ∧
              s.Creates (CircuitType.toExprs x) (CircuitType.encode T v) t) := by
  have hs := h.resupplied
  have hrepeats : stored <+: earlier ++ stored ↔
      (earlier ++ stored).take stored.length = stored := by
    rw [List.prefix_iff_eq_take, eq_comm]
  refine ⟨hs.nextVar, fun i _ => hs.lookup_eq i, hs.witnessValues_eq, ?_, ?_, creates_store,
    fun hlazy {_ _ _ _} hvalues hrun => ?_, fun hlazy {_ _} _ _ {_ _ _ _} hvalue hcheck hrun =>
      creates_introduce hvalue hcheck hs.hasValues hlazy hrun⟩
  · rw [List.prefix_iff_getElem?]
    refine forall_congr' fun i => forall_congr' fun hi => ?_
    rw [hs.lookup_eq, List.getElem?_eq_getElem hi]
  · rw [hrepeats, hs.witnessValues_eq]
    simp
  · obtain ⟨vs, u, before, hcomputed, hlength, hst, hxs⟩ :=
      creates_declare hvalues hs.hasValues hlazy hrun
    exact ⟨vs, u, hcomputed, hlength, before, [], by rw [hst.storedSince_eq, List.append_nil], hxs⟩

def storedTwice (a b : Fp) : Run Pasta.p Unit where
  system := some (.empty 0)
  publicValues := #[]
  privateValues := #[a, b]
  evaluates := false
  publicSize := 0
  nextVar := 1
  hasValues := true
  contexts := [⟨true, false⟩]
  author := ()

theorem series_storedTwice (a b : Fp) : Series (start 0 true ()) [a] [] [b] (storedTwice a b) := by
  let first : Run Pasta.p Unit := { start 0 true () with hasValues := true }
  let second : Run Pasta.p Unit := { first with privateValues := #[a] }
  have hfirst : Series (start 0 true ()) [] [] [] first :=
    .first (supply_eq_ok.mpr ⟨rfl, rfl⟩)
  have hstored : Series (start 0 true ()) [] [] [a] { second with nextVar := 1 } :=
    hfirst.ok (.granted (.store [a])) rfl
  have hsecond : Series (start 0 true ()) [a] [] [] second :=
    hstored.next (supply_eq_ok.mpr ⟨rfl, rfl⟩)
  exact hsecond.ok (.granted (.store [b])) rfl

theorem reads_back_iff_storedTwice :
    (storedTwice 5 7).lookup 0 = some 5 ∧
      witnessValues (storedTwice 5 7) = .ok [5] (storedTwice 5 7) := by
  obtain ⟨-, hlookup, hwitness, -⟩ := (series_storedTwice 5 7).reads_back_iff
  exact ⟨hlookup 0 Nat.one_pos, hwitness⟩

theorem stale_storedTwice :
    ¬ ∀ {size : Nat} {recording : Bool} {earlier input stored : List Fp} {s : Run Pasta.p Unit},
      Series (start size recording ()) earlier input stored s →
        (∀ i < stored.length, s.lookup (size + i) = stored[i]?) ∧
          witnessValues s = .ok (input ++ stored) s := by
  intro hclaim
  obtain ⟨hreads, -⟩ := hclaim (series_storedTwice 5 7)
  have hstale : some (5 : Fp) = some 7 := hreads 0 Nat.one_pos
  exact absurd hstale (by decide +kernel)

end Run

end PallasCircuits
