import PallasCircuits.Proofs.Logic

namespace PallasCircuits

open Builder

variable {n : Nat} [Modulus n] {σ T V : Type} [CircuitType n T V]

/-! Values are selected as a whole, all of their components by the same bits. -/

theorem Run.carriesAll_fields {s : Run n σ} {x : T} (hx : InScope (n := n) s.nextVar x) :
    s.CarriesAll (CircuitType.toExprs x) (CircuitType.fields s.assignment x) :=
  ⟨hx, rfl⟩

namespace BoolVar

variable {start : Run n σ}

theorem choose_computes (b : BoolVar n) (x y : Expr n) :
    start.Computes (b.choose x y) [b.expr, x, y] (fun ρ => b.IsBit ρ)
      fun ρ => [if b.truth ρ then x.eval ρ else y.eval ρ] := by
  refine .of_specs (choose_builds b x y) (fun ρ => ?_) fun hoperands hb => ?_
  · refine (choose_ensures b x y).mono fun z hz hb => ?_
    rw [CircuitType.fields_expr, hz _ hb.means]
  · simp only [List.forall_mem_cons] at hoperands
    obtain ⟨hbelow, hx, hy, -⟩ := hoperands
    exact choose_proves (hb.carries hbelow) (.of_below hx) (.of_below hy)

variable [CircuitType.Lawful n T]

theorem select_computes (b : BoolVar n) (x y : T) :
    start.Computes (b.select x y) (b.expr :: (CircuitType.toExprs x ++ CircuitType.toExprs y))
      (fun ρ => b.IsBit ρ)
      fun ρ => if b.truth ρ then CircuitType.fields ρ x else CircuitType.fields ρ y := by
  refine .of_specs (select_builds b x y) (fun ρ => ?_) fun hoperands hb => ?_
  · exact (select_ensures b x y).mono fun z hz hb => hz _ hb.means
  · obtain ⟨hbelow, hoperands⟩ := List.forall_mem_cons.mp hoperands
    obtain ⟨hx, hy⟩ := List.forall_mem_append.mp hoperands
    exact select_fields_proves (hb.carries hbelow) (Run.carriesAll_fields hx)
      (Run.carriesAll_fields hy)

end BoolVar

/-! ### Switches -/

/-- From `start` on, a switch gives the one of the values that its mask points out, and there
is one if all of the mask are bits. -/
structure Run.Switches (start : Run n σ) (mask : List (BoolVar n)) (values : List T) : Prop where
  builds : start.SettingUp →
    (∃ ρ, (∀ b ∈ mask, b.IsBit ρ) ∧ (mask.map (·.truth ρ)).count true = 1) →
      ∃ x u, BoolVar.switch mask values start = .ok x u
  sound : start.Recording → ∀ x u, BoolVar.switch mask values start = .ok x u →
    ∀ ρ, (∀ c ∈ start.recordedSince u, c.Holds ρ) → (∀ b ∈ mask, b.IsBit ρ) →
      ∃ y, Selects (mask.map (·.truth ρ)) values y ∧
        CircuitType.fields ρ x = CircuitType.fields ρ y
  accepts : start.Proving → (∀ b ∈ mask, b.expr.Below start.nextVar) →
    (∀ y ∈ values, InScope (n := n) start.nextVar y) → (∀ b ∈ mask, b.IsBit start.assignment) →
    (mask.map (·.truth start.assignment)).count true = 1 →
      ∃ y x u, Selects (mask.map (·.truth start.assignment)) values y ∧
        BoolVar.switch mask values start = .ok x u ∧ start.Advances u ∧
        u.CarriesAll (CircuitType.toExprs x) (CircuitType.fields start.assignment y)
  rejects : start.Proving → start.evaluates = true →
    (∀ b ∈ mask, b.expr.Below start.nextVar) → (∀ b ∈ mask, b.IsBit start.assignment) →
    ∀ k, (mask.map (·.truth start.assignment)).count true = k → k ≠ 1 →
      ∃ fault, (fault = .setup (.unequalConstants k 1) ∨ fault = .violation (.notEqual k 1)) ∧
        BoolVar.switch mask values start = .error fault start

namespace BoolVar

variable {ρ : Nat → Residue n} {start : Run n σ} {mask : List (BoolVar n)} {values : List T}

theorem sum_evals (hbits : ∀ b ∈ mask, b.IsBit ρ) :
    (mask.map (·.expr.eval ρ)).sum = ((mask.map (·.truth ρ)).count true : Nat) := by
  rw [IsBit.evals hbits, Residue.sum_ofBool]

theorem count_of_sum (hlength : mask.length < n) (hbits : ∀ b ∈ mask, b.IsBit ρ)
    (hsum : (mask.map (·.expr.eval ρ)).sum = 1) : (mask.map (·.truth ρ)).count true = 1 := by
  rw [IsBit.evals hbits, ← Nat.cast_one] at hsum
  exact (Residue.sum_ofBool_eq_natCast_iff (by simpa using hlength) Modulus.one_lt).mp hsum

theorem switch_of_length (h : mask.length ≠ values.length ∨ values = []) (s : Run n σ) :
    switch mask values s = .error (.setup (.length mask.length values.length)) s := by
  unfold switch
  rw [if_pos (by simpa using h)]
  exact bind_of_error rfl

theorem switch_of_error {fault : Fault} {s t : Run n σ} (hlength : mask.length = values.length)
    (hvalues : values ≠ []) (herror : (Expr.sum (mask.map expr)).assertEqual 1 s = .error fault t) :
    switch mask values s = .error fault t := by
  unfold switch
  rw [if_neg (by simp [hlength, hvalues])]
  exact bind_of_error herror

variable [CircuitType.Lawful n T]

theorem switch_switches (hlength : mask.length = values.length) (hvalues : values ≠ [])
    (hmask : mask.length < n) : start.Switches mask values where
  builds := by
    rintro hs ⟨ρ, hbits, hcount⟩
    have hsum : (Expr.sum (mask.map expr)).eval ρ = 1 := by
      rw [Expr.eval_sum, List.map_map, ← Nat.cast_one, ← hcount]
      exact sum_evals hbits
    obtain ⟨x, u, hrun, -, -⟩ := switch_builds_of_sum hlength (by simpa using hvalues)
      (fun a ha => (Expr.eval_of_toConstant? ρ ha).symm.trans hsum) start hs
    exact ⟨x, u, hrun⟩
  sound hs x u hrun ρ hholds hbits := by
    obtain ⟨⟨-, hsum⟩, hfields⟩ := ((switch_checked_ensures mask values).and
      (switch_ensures mask values)).of_recordedSince hs hrun hholds
    obtain ⟨y, hselects⟩ := Selects.exists_of_count (by simpa using hlength)
      (count_of_sum hmask hbits hsum)
    exact ⟨y, hselects, hfields _ y (IsBit.evals hbits) hselects⟩
  accepts hs hbelow hscope hbits hcount := by
    obtain ⟨y, hselects⟩ := Selects.exists_of_count (by simpa using hlength) hcount
    have hcarries := IsBit.carriesAll (List.forall_mem_map.mpr hbelow) hbits
    obtain ⟨x, u, hrun, hstu, hx⟩ := switch_proves hcarries hselects hscope
      (Run.carriesAll_fields (hscope y hselects.mem)) hs
    exact ⟨y, x, u, hselects, hrun, hstu, hx⟩
  rejects hs heval hbelow hbits k hk hne := by
    have hcarries := IsBit.carriesAll (List.forall_mem_map.mpr hbelow) hbits
    -- the mask is too short for its sum to wrap around to one
    have hlt : k < n := by
      rw [← hk]
      exact List.count_le_length.trans_lt (by simpa using hmask)
    have hsum := Run.Carries.sum hcarries
    rw [Residue.sum_ofBool, hk] at hsum
    have hne' : (k : Residue n) ≠ 1 := by
      rw [← hk, ← sum_evals hbits]
      exact fun hone => hne (hk.symm.trans (count_of_sum hmask hbits hone))
    obtain ⟨fault, hfault, herror⟩ := Expr.assertEqual_of_ne hs heval hsum .one hne'
    rw [Residue.val_natCast_of_lt hlt, Residue.val_one] at hfault
    exact ⟨fault, hfault, switch_of_error hlength hvalues herror⟩

/-- Choices, selections and switches give the value that their bits point out, component by
component, and an honest prover gets through just if there is one. -/
theorem selection_exact (start : Run n σ) :
    (∀ (b : BoolVar n) (x y : Expr n),
      start.Computes (b.choose x y) [b.expr, x, y] (fun ρ => b.IsBit ρ)
        fun ρ => [if b.truth ρ then x.eval ρ else y.eval ρ]) ∧
    (∀ (b : BoolVar n) (x y : T),
      start.Computes (b.select x y) (b.expr :: (CircuitType.toExprs x ++ CircuitType.toExprs y))
        (fun ρ => b.IsBit ρ)
        fun ρ => if b.truth ρ then CircuitType.fields ρ x else CircuitType.fields ρ y) ∧
    ∀ (mask : List (BoolVar n)) (values : List T),
      (mask.length = values.length → values ≠ [] → mask.length < n →
        start.Switches mask values) ∧
      (mask.length ≠ values.length ∨ values = [] → switch mask values start =
        .error (.setup (.length mask.length values.length)) start) := by
  refine ⟨choose_computes, select_computes, fun mask values => ⟨?_, fun h => ?_⟩⟩
  · exact switch_switches
  · exact switch_of_length h start

def maskRun : Run Pasta.p Unit :=
  .proof [1, 0, .ofNat 7, .ofNat 8] ()

def maskedPairs : List (Expr Pasta.p × Expr Pasta.p) :=
  [(.var 2, .const 5), (.var 3, .var 3)]

theorem selection_exact_maskRun :
    (∃ x u, select ⟨.var 0⟩ ((.var 2, .const 5) : Expr Pasta.p × Expr Pasta.p) (.var 3, .var 3)
      maskRun = .ok x u ∧ u.Carries x ((7, 5) : Fp × Fp)) ∧
    (∃ y x u, Selects [false, true] maskedPairs y ∧
      switch [⟨.var 1⟩, ⟨.var 0⟩] maskedPairs maskRun = .ok x u) ∧
    (∃ fault, (fault = .setup (.unequalConstants 2 1) ∨ fault = .violation (.notEqual 2 1)) ∧
      switch [⟨.var 0⟩, ⟨.const 1⟩] maskedPairs maskRun = .error fault maskRun) ∧
    switch [⟨.var 0⟩] maskedPairs maskRun = .error (.setup (.length 1 2)) maskRun := by
  have hstart : maskRun.Proving := Run.proving_proof _ ()
  obtain ⟨-, hselect, hswitch⟩ := selection_exact (T := Expr Pasta.p × Expr Pasta.p) maskRun
  have hvalues : maskedPairs ≠ [] := List.cons_ne_nil _ _
  refine ⟨?_, ?_, ?_, (hswitch _ _).2 (.inl (by decide))⟩
  · obtain ⟨x, u, hrun, -, hx⟩ := (hselect ⟨.var 0⟩ (.var 2, .const 5) (.var 3, .var 3)).honest
      hstart (by simp [CircuitType.toExprs, Expr.Below, maskRun, Run.proof, Run.start]) (by decide)
    exact ⟨x, u, hrun, hx⟩
  · obtain ⟨y, x, u, hselects, hrun, -⟩ :=
      ((hswitch [⟨.var 1⟩, ⟨.var 0⟩] maskedPairs).1 rfl hvalues (by decide)).accepts hstart
        (by simp [Expr.Below, maskRun, Run.proof, Run.start])
        (by simp [maskedPairs, InScope, CircuitType.toExprs, Expr.Below, maskRun, Run.proof,
          Run.start]) (by decide) (by decide)
    exact ⟨y, x, u, hselects, hrun⟩
  · exact ((hswitch [⟨.var 0⟩, ⟨.const 1⟩] maskedPairs).1 rfl hvalues (by decide)).rejects hstart
      rfl (by simp [Expr.Below, maskRun, Run.proof, Run.start]) (by decide) 2 (by decide)
      (by decide)

end BoolVar

end PallasCircuits
