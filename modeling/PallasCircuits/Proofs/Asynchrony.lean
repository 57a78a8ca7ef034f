import PallasCircuits.Proofs.CircuitType
import PallasCircuits.Proofs.Proving

namespace PallasCircuits

open Builder

variable {n : Nat} {σ T V : Type} [CircuitType n T V]

/-! A computation that makes its caller wait introduces the same value as one that does not, or
fails like it, and leaves the same run behind. What belongs to the author tells whether it was
started: it is all that such a computation can touch. -/

namespace Builder

variable {outcome : EStateM Fault σ V} {s : Run n σ}

theorem witnessing_pure (v : V) (s : Run n σ) :
    (witnessing (pure v) : Builder n σ V) s = .ok v s :=
  witnessing_authored_of_ok (m := pure v) (s := s) rfl

theorem witness_authored_of_ok {v : V} {author : σ}
    (hneeded : s.eager = true ∨ s.hasValues = true) (hrun : outcome s.author = .ok v author) :
    (witness (authored outcome) : Builder n σ T) s =
      (witness (pure v) : Builder n σ T) { s with author } := by
  obtain ⟨t, ht⟩ : ∃ t : Run n σ, t = { s with author } := ⟨_, rfl⟩
  have heager : t.eager = s.eager := by rw [ht]; rfl
  have hvalues : t.hasValues = s.hasValues := by rw [ht]
  unfold witness
  rw [← ht]
  cases hs : s.eager with
  | true =>
      rw [introduce_of_eager hs, introduce_of_eager (heager.trans hs),
        bind_of_ok (authored_of_ok hrun), ← ht, pure_bind]
  | false =>
      have hsvalues := hneeded.resolve_left (Bool.eq_false_iff.mp hs)
      rw [introduce_of_lazy hs, bind_congr_apply (declareWith_of_values (.inl hsvalues)),
        introduce_of_lazy (heager.trans hs),
        bind_congr_apply (declareWith_of_values (.inl (hvalues.trans hsvalues)))]
      simp only [encoded, bind_assoc]
      rw [bind_of_ok (witnessing_authored_of_ok hrun), ← ht, bind_of_ok (witnessing_pure v t)]

theorem witness_authored_of_error {fault : Fault} {author : σ}
    (hneeded : s.eager = true ∨ s.hasValues = true)
    (hrun : outcome s.author = .error fault author) :
    (witness (authored outcome) : Builder n σ T) s = .error fault { s with author } := by
  unfold witness
  cases heager : s.eager with
  | true =>
      rw [introduce_of_eager heager]
      exact bind_of_error (authored_of_error hrun)
  | false =>
      rw [introduce_of_lazy heager]
      refine bind_of_error ((declareWith_of_values hneeded.symm).trans (bind_of_error ?_))
      exact bind_of_error (witnessing_authored_of_error hrun)

/-- However often it makes its caller wait, a computation that gets to its end is introduced as if
it had not, in every run: with the same result or error, and with the same run in the end. Setup
runs start neither of the two, so that any others would do in their place. All other runs start
them just once, and before anything else. -/
theorem witnessAsync_agrees {polls : Option Nat} {future : Future σ V}
    (hready : future.await? polls = some outcome) (start : Run n σ) :
    (witnessAsync polls future : Builder n σ (Option T)) start =
      (some <$> witness (authored outcome) : Builder n σ (Option T)) start ∧
    (start.eager = false → start.hasValues = false →
      ∀ (future' : Future σ V) (outcome' : EStateM Fault σ V),
        (witnessAsync polls future' : Builder n σ (Option T)) start =
          (some <$> witness (authored outcome') : Builder n σ (Option T)) start) ∧
    (start.eager = true ∨ start.hasValues = true →
      (witness (authored outcome) : Builder n σ T) start =
        match outcome start.author with
        | .ok v author => (witness (pure v) : Builder n σ T) { start with author }
        | .error fault author => .error fault { start with author }) := by
  refine ⟨witnessAsync_of_ready hready start, fun hlazy hvalues future' outcome' => ?_,
    fun hneeded => ?_⟩
  · have hpolls : polls ≠ some 0 := by
      rintro rfl
      cases hready
    exact witnessAsync_of_setup hvalues hlazy hpolls (authored outcome')
  · cases hrun : outcome start.author with
    | ok v author => exact witness_authored_of_ok hneeded hrun
    | error fault author => exact witness_authored_of_error hneeded hrun

structure Noted (T : Type) where
  value : T
  note : Option String

instance [Modulus n] : CircuitType n (Noted T) (V × String) where
  Aux := CircuitType.Aux n T × Option String
  setupAux := (CircuitType.setupAux, none)
  size := CircuitType.size n T
  toExprs x := CircuitType.toExprs x.value
  aux x := (CircuitType.aux x.value, x.note)
  ofExprs? xs aux := (CircuitType.ofExprs? xs aux.1).map fun value => ⟨value, aux.2⟩
  encode v := CircuitType.encode T v.1
  valueAux v := (CircuitType.valueAux v.1, some v.2)
  decode? as aux := (CircuitType.decode? (T := T) as aux.1).map fun v => (v, aux.2.getD "")
  check x := CircuitType.check x.value

/-- A number that is too wide for three limbs, the third time it is asked for. Its author counts
how often it was computed. -/
def tooWide : Future Nat (Nat × String) :=
  .pending (.pending (.ready fun count => .ok (2 ^ 264, "too wide") (count + 1)))

theorem witnessAsync_agrees_tooWide :
    (witnessAsync (some 3) tooWide : Builder Pasta.p Nat (Option (Noted (Limbs (Expr Pasta.p)))))
      (.proof [] 0) = (some <$> witness (authored tooWide.outcome)) (.proof [] 0) ∧
    (witnessAsync (some 3) tooWide : Builder Pasta.p Nat (Option (Noted (Limbs (Expr Pasta.p)))))
      (.start 0 true 0) = (some <$> witness (authored (throw .abort))) (.start 0 true 0) ∧
    (witness (authored tooWide.outcome) : Builder Pasta.p Nat (Noted (Limbs (Expr Pasta.p))))
      (.proof [] 0) = witness (pure (2 ^ 264, "too wide")) (.proof [] 1) := by
  have hready : tooWide.await? (some 3) = some tooWide.outcome := rfl
  obtain ⟨hsame, -, hneeded⟩ := witnessAsync_agrees (T := Noted (Limbs (Expr Pasta.p))) hready
    (.proof [] 0 : Run Pasta.p Nat)
  obtain ⟨-, hskipped, -⟩ := witnessAsync_agrees (T := Noted (Limbs (Expr Pasta.p))) hready
    (.start 0 true 0 : Run Pasta.p Nat)
  have hskipped := hskipped rfl rfl tooWide (throw .abort)
  have hneeded := hneeded (.inr rfl)
  exact ⟨hsame, hskipped, hneeded⟩

-- The check of the limbs comes when there are variables already.
example : (match (witnessAsync none tooWide :
      Builder Pasta.p Nat (Option (Noted (Limbs (Expr Pasta.p))))) (.proof [] 0) with
    | .ok _ _ => none
    | .error fault t => some (fault, t.nextVar, t.author)) =
      some (.violation (.tooWide (2 ^ 88) 88), 3, 1) := by
  decide +kernel

-- The note is on the value in proving runs only.
example : ([.start 0 true (), .proof [] ()] : List (Run Pasta.p Unit)).map (fun s =>
    match (witnessAsync none (.ready (pure (3, "three"))) :
      Builder Pasta.p Unit (Option (Noted (Expr Pasta.p)))) s with
    | .ok x _ => x.bind Noted.note
    | .error _ _ => none) = [none, some "three"] := by
  decide +kernel

end Builder

end PallasCircuits
