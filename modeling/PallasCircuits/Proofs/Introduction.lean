import PallasCircuits.Proofs.WellFormed

namespace PallasCircuits

open Builder

variable {n : Nat} [Modulus n] {σ : Type}

/-! Numbers can be introduced into a circuit however large they are. Three limbs hold them modulo
`2 ^ 176 * n`, as the highest limb takes what is left of a number and is a field element, and what
they hold is checked to have 264 bits. -/

theorem Run.Proving.read_eq {T V : Type} [CircuitType n T V] {s : Run n σ} (hs : s.Proving) {x : T}
    (hx : InScope (n := n) s.nextVar x) :
    CircuitType.read x s.lookup =
      CircuitType.decode? (T := T) (CircuitType.fields s.assignment x) (CircuitType.aux x) := by
  apply CircuitType.read_of_map_eq
  rw [CircuitType.fields, List.map_map]
  exact List.map_congr_left fun e he => hs.eval?_eq (hx e he)

namespace Limbs

variable {start : Run n σ} {x : Limbs (Expr n)} {v : Nat}

/-- From `start`, the computation `m` introduces the number `v` into the circuit. -/
structure Introduces (start : Run n σ) (m : Builder n σ (Limbs (Expr n))) (v : Nat) : Prop where
  accepts : v % (2 ^ 176 * n) < 2 ^ 264 → ∃ x u, m start = .ok x u ∧ start.Advances u ∧
    CircuitType.read x u.lookup = some (v % (2 ^ 176 * n))
  rejects : 2 ^ 264 ≤ v % (2 ^ 176 * n) →
    ∃ violation u, m start = .error (.violation violation) u
  faithful : v < 2 ^ 176 * n → ∀ x u, m start = .ok x u →
    v < 2 ^ 264 ∧ CircuitType.read x u.lookup = some v

theorem Introduces.of_cases {m : Builder n σ (Limbs (Expr n))}
    (accepts : v % (2 ^ 176 * n) < 2 ^ 264 → ∃ x u, m start = .ok x u ∧ start.Advances u ∧
      CircuitType.read x u.lookup = some (v % (2 ^ 176 * n)))
    (rejects : 2 ^ 264 ≤ v % (2 ^ 176 * n) →
      ∃ violation u, m start = .error (.violation violation) u) :
    Introduces start m v where
  accepts := accepts
  rejects := rejects
  faithful hv x u hrun := by
    rw [Nat.mod_eq_of_lt hv] at accepts rejects
    by_cases hlt : v < 2 ^ 264
    · obtain ⟨y, t, hrun', -, hread⟩ := accepts hlt
      rw [hrun'] at hrun
      cases hrun
      exact ⟨hlt, hread⟩
    · obtain ⟨violation, t, hrun'⟩ := rejects (not_lt.mp hlt)
      rw [hrun'] at hrun
      cases hrun

variable [PastaPrime n]

theorem read_of_carries (hs : start.Proving) (hx : start.Carries x v) :
    CircuitType.read x start.lookup = some (v % (2 ^ 176 * n)) := by
  rw [hs.read_eq ((inScope_limbs _ _).mpr (below_of_carries hx))]
  change some (x.eval start.assignment).toNat = _
  rw [eval_of_carries_mod hx, toNat_ofNat]

theorem witness_introduces {value : Builder n σ Nat} (author : σ) (hs : start.Proving)
    (heval : start.evaluates = true)
    (hvalue : witnessing value start = .ok v { start with author }) :
    Introduces start (witness value) v := by
  obtain ⟨x, t, hst, hx, hrun⟩ := witness_of_proving (T := Limbs (Expr n)) hs hvalue
  have hbelow := below_of_carries hx
  have hvalue := eval_of_carries_mod hx
  refine .of_cases (fun hlt => ?_) fun hle => ?_
  · have hrange : (x.eval t.assignment).InRange := by
      rw [hvalue]
      exact inRange_ofNat hlt
    obtain ⟨⟨⟩, u, hcheck, htu, -⟩ := assertRange_proves_of_inRange hbelow hrange hst.proving
    exact ⟨x, u, hrun.trans (bind_of_ok hcheck), hst.trans htu,
      read_of_carries htu.proving (hx.mono htu)⟩
  · have hrange : ¬∀ a ∈ CircuitType.fields t.assignment x, a.val < 2 ^ 88 := by
      rw [CircuitType.forall_fields_limbs, hvalue, inRange_ofNat_iff]
      exact not_lt.mpr hle
    have haccepts := CircuitType.checks_limbs.accepts (σ := σ) ((inScope_limbs _ _).mpr hbelow)
    obtain ⟨violation, u, hcheck⟩ := haccepts.violation_of_not hst.proving le_rfl
      (hst.evaluates.trans heval) trivial hrange
    exact ⟨violation, u, hrun.trans (bind_of_error hcheck)⟩

/-- A proving run that introduces a number in limbs reads it back modulo `2 ^ 176 * n`. It goes
through just if this has 264 bits. Below `2 ^ 176 * n` no number is mistaken for another one. -/
theorem introduces_modulo (hs : start.Proving) (heval : start.evaluates = true) :
    (∀ (value : Builder n σ Nat) (v : Nat) (author : σ),
      witnessing value start = .ok v { start with author } →
        Introduces start (witness value) v) ∧
    ∀ (value : Reading n Nat) (v : Nat), value start.lookup = some v →
      Introduces start (compute value) v :=
  ⟨fun _ _ author hvalue => witness_introduces author hs heval hvalue, fun _ _ hvalue =>
    witness_introduces start.author hs heval (witnessing_reading hvalue)⟩

theorem introduces_modulo_greatest :
    (∃ x u, (witness (pure (2 ^ 264 - 1)) : Builder Pasta.q Unit (Limbs (Expr Pasta.q)))
        (.proof [] ()) = .ok x u ∧
      CircuitType.read (n := Pasta.q) x u.lookup = some (2 ^ 264 - 1)) ∧
    ∃ violation u, (compute (pure (2 ^ 264)) : Builder Pasta.p Unit (Limbs (Expr Pasta.p)))
      (.proof [] ()) = .error (.violation violation) u := by
  have hq := PastaPrime.two_pow_lt (n := Pasta.q)
  have hp := PastaPrime.two_pow_lt (n := Pasta.p)
  have hwitness := (introduces_modulo (Run.proving_proof (n := Pasta.q) [] ()) rfl).1
    (pure (2 ^ 264 - 1)) _ () rfl
  have hcompute := (introduces_modulo (Run.proving_proof (n := Pasta.p) [] ()) rfl).2
    (pure (2 ^ 264)) _ rfl
  have haccepted : (2 ^ 264 - 1) % (2 ^ 176 * Pasta.q) = 2 ^ 264 - 1 := Nat.mod_eq_of_lt (by omega)
  obtain ⟨x, u, hrun, -, hread⟩ := hwitness.accepts (by rw [haccepted]; omega)
  rw [haccepted] at hread
  exact ⟨⟨x, u, hrun, hread⟩, hcompute.rejects (by rw [Nat.mod_eq_of_lt (by omega)])⟩

theorem introduces_multiple_as_zero :
    2 ^ 264 ≤ 2 ^ 176 * Pasta.p ∧
    ∃ x u, (witness (pure (2 ^ 176 * Pasta.p)) : Builder Pasta.p Unit (Limbs (Expr Pasta.p)))
        (.proof [] ()) = .ok x u ∧
      CircuitType.read (n := Pasta.p) x u.lookup = some 0 := by
  have hp := PastaPrime.two_pow_lt (n := Pasta.p)
  have hintroduces : Introduces (.proof [] () : Run Pasta.p Unit)
      (witness (pure (2 ^ 176 * Pasta.p))) (2 ^ 176 * Pasta.p) :=
    witness_introduces () (Run.proving_proof [] ()) rfl rfl
  have hzero : 2 ^ 176 * Pasta.p % (2 ^ 176 * Pasta.p) = 0 := Nat.mod_self _
  obtain ⟨x, u, hrun, -, hread⟩ := hintroduces.accepts (by rw [hzero]; omega)
  rw [hzero] at hread
  exact ⟨by omega, x, u, hrun, hread⟩

end Limbs

end PallasCircuits
