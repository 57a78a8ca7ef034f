import Mathlib.NumberTheory.LucasPrimality
import PallasCircuits.Proofs.Field.Ring

namespace PallasCircuits

/-! Both moduli are prime: a residue of order `n - 1` modulo `n` shows that all nonzero
residues are invertible. The prime factors of `n - 1` are certified in the same way until
they are small. -/

theorem prime_of_order {n : Nat} [Modulus n] (a : Residue n) (factors : List (Nat × Nat))
    (hprime : ∀ factor ∈ factors, factor.1.Prime)
    (hprod : (factors.map fun factor => factor.1 ^ factor.2).prod = n - 1)
    (hfull : a ^ (n - 1) = 1)
    (hpart : ∀ factor ∈ factors, a ^ ((n - 1) / factor.1) ≠ 1) : n.Prime := by
  have hone : ∀ k : Nat, a.toZMod ^ k = 1 ↔ a ^ k = 1 := by
    intro k
    rw [← Residue.toZMod_pow, ← Residue.toZMod_one, Residue.toZMod_injective.eq_iff]
  refine lucas_primality n a.toZMod ((hone _).mpr hfull) ?_
  intro r hr hdvd
  rw [← hprod] at hdvd
  obtain ⟨power, hpower, hrdvd⟩ := (Prime.dvd_prod_iff hr.prime).mp hdvd
  obtain ⟨factor, hfactor, rfl⟩ := List.mem_map.mp hpower
  have heq : r = factor.1 :=
    (Nat.prime_dvd_prime_iff_eq hr (hprime factor hfactor)).mp (hr.dvd_of_dvd_pow hrdvd)
  rw [ne_eq, hone, heq]
  exact hpart factor hfactor

/-- A number with a generator of its residues and the prime factors of its predecessor,
each with an exponent. -/
structure PrimeCertificate where
  number : Nat
  generator : Nat
  factors : List (Nat × Nat)

namespace PrimeCertificate

def check (known : List Nat) (certificate : PrimeCertificate) : Bool :=
  if h : 1 < certificate.number then
    haveI : Modulus certificate.number := ⟨h⟩
    let a : Residue certificate.number := Residue.ofNat certificate.generator
    let order := certificate.number - 1
    certificate.factors.all (fun factor => known.contains factor.1) &&
      decide ((certificate.factors.map fun factor => factor.1 ^ factor.2).prod = order) &&
      decide (a ^ order = 1) &&
      certificate.factors.all fun factor => decide (a ^ (order / factor.1) ≠ 1)
  else false

def checkAll : List Nat → List PrimeCertificate → Bool
  | _, [] => true
  | known, certificate :: rest =>
      certificate.check known && checkAll (certificate.number :: known) rest

theorem prime_of_check {known : List Nat} {certificate : PrimeCertificate}
    (hknown : ∀ r ∈ known, r.Prime) (h : certificate.check known = true) :
    certificate.number.Prime := by
  unfold check at h
  split at h
  · next hone =>
      have : Modulus certificate.number := ⟨hone⟩
      simp only [Bool.and_eq_true, List.all_eq_true, List.contains_iff_mem,
        decide_eq_true_eq] at h
      obtain ⟨⟨⟨hfactors, hprod⟩, hfull⟩, hpart⟩ := h
      exact prime_of_order (Residue.ofNat certificate.generator) certificate.factors
        (fun factor hfactor => hknown _ (hfactors factor hfactor)) hprod hfull hpart
  · cases h

theorem prime_of_checkAll {certificates : List PrimeCertificate} {known : List Nat}
    (hknown : ∀ r ∈ known, r.Prime) (h : checkAll known certificates = true) :
    ∀ certificate ∈ certificates, certificate.number.Prime := by
  induction certificates generalizing known with
  | nil => exact fun _ hmem => absurd hmem (List.not_mem_nil)
  | cons certificate rest ih =>
      simp only [checkAll, Bool.and_eq_true] at h
      have hprime := prime_of_check hknown h.1
      intro other hother
      rcases List.mem_cons.mp hother with rfl | hrest
      · exact hprime
      · exact ih (List.forall_mem_cons.mpr ⟨hprime, hknown⟩) h.2 other hrest

end PrimeCertificate

namespace Pasta

private def smallPrimes : List Nat :=
  [2, 3, 5, 7, 11, 13, 17, 19, 59, 71, 89, 359, 463, 509, 757, 1709, 1973, 2531, 12149, 14923,
    24859, 31649, 115603, 294793, 413527, 772231, 897019, 958679, 1197907, 4025699, 4229279,
    5701177, 6942563]

private theorem prime_of_mem_smallPrimes : ∀ r ∈ smallPrimes, r.Prime := by
  rw [← List.forall_iff_forall_mem]
  norm_num [smallPrimes]

private def certificates : List PrimeCertificate :=
  [⟨41655379, 2, [(2, 1), (3, 1), (6942563, 1)]⟩,
    ⟨22160661629, 3, [(2, 2), (7, 1), (19, 1), (41655379, 1)]⟩,
    ⟨325086459374267, 2, [(2, 1), (509, 1), (413527, 1), (772231, 1)]⟩,
    ⟨8999194758858563409123804352480028797519453, 2,
      [(2, 2), (3, 4), (11, 1), (2531, 1), (115603, 1), (1197907, 1), (22160661629, 1),
        (325086459374267, 1)]⟩,
    ⟨417677162933, 2, [(2, 2), (59, 1), (1973, 1), (897019, 1)]⟩,
    ⟨539204044132271846773, 5, [(2, 2), (3, 5), (89, 1), (14923, 1), (417677162933, 1)]⟩,
    ⟨399082391, 7, [(2, 1), (5, 1), (7, 1), (5701177, 1)]⟩,
    ⟨5239247429827, 2, [(2, 1), (3, 2), (757, 1), (12149, 1), (31649, 1)]⟩,
    ⟨10427374428728808478656897599072717, 2,
      [(2, 2), (294793, 1), (4229279, 1), (399082391, 1), (5239247429827, 1)]⟩,
    ⟨4129989133, 5, [(2, 2), (3, 1), (359, 1), (958679, 1)]⟩,
    ⟨80513981, 2, [(2, 2), (5, 1), (4025699, 1)]⟩,
    ⟨5247740253619, 2, [(2, 1), (3, 3), (17, 1), (71, 1), (80513981, 1)]⟩,
    ⟨1690502597179744445941507, 2,
      [(2, 1), (3, 1), (13, 1), (4129989133, 1), (5247740253619, 1)]⟩,
    ⟨p, generator,
      [(2, 32), (3, 1), (463, 1), (539204044132271846773, 1),
        (8999194758858563409123804352480028797519453, 1)]⟩,
    ⟨q, generator,
      [(2, 32), (3, 2), (1709, 1), (24859, 1), (1690502597179744445941507, 1),
        (10427374428728808478656897599072717, 1)]⟩]

private theorem prime_of_mem_certificates :
    ∀ certificate ∈ certificates, certificate.number.Prime :=
  PrimeCertificate.prime_of_checkAll prime_of_mem_smallPrimes (by decide +kernel)

theorem prime_p : p.Prime :=
  prime_of_mem_certificates (certificates.get ⟨13, by decide⟩) (List.get_mem ..)

theorem prime_q : q.Prime :=
  prime_of_mem_certificates (certificates.get ⟨14, by decide⟩) (List.get_mem ..)

end Pasta

/-- What the two moduli have in common: primes of 255 binary digits. -/
class PastaPrime (n : Nat) : Prop where
  prime : n.Prime
  two_pow_lt : 2 ^ 254 < n
  lt_two_pow : n < 2 ^ 255

instance : PastaPrime Pasta.p where
  prime := Pasta.prime_p
  two_pow_lt := by decide
  lt_two_pow := by decide

instance : PastaPrime Pasta.q where
  prime := Pasta.prime_q
  two_pow_lt := by decide
  lt_two_pow := by decide

instance {n : Nat} [PastaPrime n] : Fact n.Prime := ⟨PastaPrime.prime⟩

theorem PastaPrime.odd (n : Nat) [PastaPrime n] : n % 2 = 1 := by
  have hne : n ≠ 2 := by
    have hlt := PastaPrime.two_pow_lt (n := n)
    omega
  exact (PastaPrime.prime (n := n)).eq_two_or_odd.resolve_left hne

theorem PastaPrime.width_eq (n : Nat) [PastaPrime n] : Binary.width n = 255 := by
  have hle : Binary.width n ≤ 255 := (Binary.width_le_iff n 255).mpr PastaPrime.lt_two_pow
  have hlt : 254 < Binary.width n := (Binary.lt_width_iff 254 n).mpr PastaPrime.two_pow_lt.le
  omega

theorem PastaPrime.half_lt (n : Nat) [PastaPrime n] : (n - 1) / 2 < 2 ^ 254 := by
  have hlt := PastaPrime.lt_two_pow (n := n)
  omega

namespace Residue

variable {n : Nat} [Modulus n]

section

variable [Fact n.Prime]

theorem mul_invOrZero {a : Residue n} (ha : a ≠ 0) : a * a.invOrZero = 1 := by
  have hpow : a * a ^ (n - 2) = a ^ (n - 1) := by
    have htwo : 2 ≤ n := Modulus.one_lt
    rw [← pow_succ']
    congr 1
    omega
  have hinv : a.invOrZero = a ^ (n - 2) := by
    simp [invOrZero, inv?, ha]
  apply toZMod_injective
  rw [hinv, hpow, toZMod_pow, toZMod_one]
  apply ZMod.pow_card_sub_one_eq_one
  rwa [← toZMod_zero, ne_eq, toZMod_injective.eq_iff]

instance : Field (Residue n) where
  inv := invOrZero
  exists_pair_ne := ⟨1, 0, one_ne_zero⟩
  mul_inv_cancel _ := mul_invOrZero
  inv_zero := rfl
  nnqsmul := _
  nnqsmul_def _ _ := rfl
  qsmul := _
  qsmul_def _ _ := rfl

@[simp] theorem invOrZero_eq_inv (a : Residue n) : a.invOrZero = a⁻¹ := rfl

theorem inv?_of_ne_zero {a : Residue n} (ha : a ≠ 0) : a.inv? = some a⁻¹ := by
  rw [← invOrZero_eq_inv, invOrZero]
  cases hinv : a.inv? with
  | none => exact absurd ((inv?_eq_none_iff a).mp hinv) ha
  | some inverse => rfl

theorem inv?_eq_some {a inverse : Residue n} (h : a.inv? = some inverse) :
    a ≠ 0 ∧ inverse = a⁻¹ := by
  have ha : a ≠ 0 := by
    rintro rfl
    simp at h
  rw [inv?_of_ne_zero ha, Option.some_inj] at h
  exact ⟨ha, h.symm⟩

end

theorem val_natCast_of_lt_two_pow [PastaPrime n] {k : Nat} (hk : k < 2 ^ 254) :
    (k : Residue n).val = k :=
  val_natCast_of_lt (hk.trans PastaPrime.two_pow_lt)

theorem lt_two_pow_of_digits {lo hi j k : Nat} (hlo : lo < 2 ^ k) (hhi : hi < 2 ^ j) :
    lo + 2 ^ k * hi < 2 ^ (k + j) := by
  have hstep : 2 ^ k * (hi + 1) ≤ 2 ^ k * 2 ^ j := Nat.mul_le_mul_left _ hhi
  rw [Nat.mul_succ] at hstep
  rw [pow_add]
  omega

theorem val_add_two_pow_mul [PastaPrime n] {lo hi : Residue n} {j k : Nat}
    (hlo : lo.val < 2 ^ k) (hhi : hi.val < 2 ^ j) (hjk : k + j ≤ 254) :
    (lo + 2 ^ k * hi).val = lo.val + 2 ^ k * hi.val := by
  have hcast : lo + 2 ^ k * hi = ((lo.val + 2 ^ k * hi.val : Nat) : Residue n) := by
    push_cast
    rw [natCast_val, natCast_val]
  rw [hcast]
  apply val_natCast_of_lt_two_pow
  exact (lt_two_pow_of_digits hlo hhi).trans_le (Nat.pow_le_pow_right (by decide) hjk)

theorem val_two_pow_mul_lt_iff [PastaPrime n] {a : Residue n} {bits : Nat} (hbits : bits ≤ 64)
    (ha : a.val < 2 ^ 64) :
    ((2 : Residue n) ^ (64 - bits) * a).val < 2 ^ 64 ↔ a.val < 2 ^ bits := by
  have hzero : (0 : Residue n).val < 2 ^ (64 - bits) := by simp
  have hval := val_add_two_pow_mul hzero ha (by omega)
  rw [zero_add, val_zero, zero_add] at hval
  have hpow : 2 ^ 64 = 2 ^ (64 - bits) * 2 ^ bits := by
    rw [← pow_add]
    congr 1
    omega
  rw [hval, hpow]
  exact Nat.mul_lt_mul_left (Nat.two_pow_pos _)

theorem val_le_of_val_sub_lt [PastaPrime n] {a : Residue n} {bound j : Nat} (hj : j ≤ 253)
    (ha : a.val < 2 ^ j)
    (hgap : ((bound : Residue n) - a).val < 2 ^ j) : a.val ≤ bound := by
  by_contra hlt
  have hn := PastaPrime.two_pow_lt (n := n)
  have hpow : 2 ^ j * 2 ≤ 2 ^ 254 := by
    rw [← pow_succ]
    exact Nat.pow_le_pow_right (by decide) (by omega)
  rw [val_sub, val_natCast_of_lt (by omega), Nat.mod_eq_of_lt (by omega)] at hgap
  omega

theorem neg_eq_of_parity [PastaPrime n] {a : Residue n}
    (h : (-a).val.testBit 0 = a.val.testBit 0) : -a = a := by
  have hodd := PastaPrime.odd n
  have hlt := a.isLt
  by_cases hzero : a.val = 0
  · have ha : a = 0 := ext (by rw [hzero, val_zero])
    rw [ha, neg_zero]
  · rw [val_neg, Nat.mod_eq_of_lt (by omega)] at h
    simp only [Nat.testBit_zero, decide_eq_decide] at h
    omega

theorem parity_mul_greatest [PastaPrime n] (a : Residue n) :
    (.ofBool (a.val.testBit 0) * .ofBool (decide
      (((a.val / 2 : Nat) : Residue n) = (((n - 1) / 2 : Nat) : Residue n))) : Residue n) = 0 := by
  have hodd := PastaPrime.odd n
  have hlt := a.isLt
  by_cases hgreatest : ((a.val / 2 : Nat) : Residue n) = (((n - 1) / 2 : Nat) : Residue n)
  · have hhalf := congrArg val hgreatest
    rw [val_natCast_of_lt (by omega), val_natCast_of_lt (by omega)] at hhalf
    have heven : a.val % 2 = 0 := by omega
    simp [Nat.testBit_zero, heven]
  · rw [decide_eq_false hgreatest, ofBool_false, mul_zero]

theorem val_eq_of_parts [PastaPrime n] {a half : Residue n} {b : Bool}
    (hsum : a = .ofBool b + ((2 : Nat) : Residue n) * half) (hhalf : half.val ≤ (n - 1) / 2)
    (hproduct : (.ofBool b *
      .ofBool (decide (half = (((n - 1) / 2 : Nat) : Residue n))) : Residue n) = 0) :
    a.val = b.toNat + 2 * half.val := by
  have hodd := PastaPrime.odd n
  have hcast : a = ((b.toNat + 2 * half.val : Nat) : Residue n) := by
    rw [hsum, Nat.cast_add, Nat.cast_mul, natCast_toNat, natCast_val]
  have hlt : b.toNat + 2 * half.val < n := by
    cases b with
    | false =>
        rw [Bool.toNat_false]
        omega
    | true =>
        have hne : half ≠ (((n - 1) / 2 : Nat) : Residue n) := by
          intro hgreatest
          rw [decide_eq_true hgreatest, ofBool_true, mul_one] at hproduct
          exact one_ne_zero hproduct
        rw [ne_eq, ← val_eq_iff_eq_natCast (by omega)] at hne
        rw [Bool.toNat_true]
        omega
  rw [hcast, val_natCast_of_lt hlt]

omit [Modulus n] in
theorem card_residue : Nat.card (Residue n) = n := by
  have equiv : Residue n ≃ Fin n :=
    ⟨fun a => ⟨a.val, a.isLt⟩, fun i => ⟨i.val, i.isLt⟩, fun _ => rfl, fun _ => rfl⟩
  rw [Nat.card_congr equiv, Nat.card_fin]

omit [Modulus n] in
instance : Finite (Residue n) :=
  Finite.of_injective (fun a => (⟨a.val, a.isLt⟩ : Fin n)) fun _ _ h =>
    ext (congrArg Fin.val h)

theorem natCast_ne_zero [PastaPrime n] {k : Nat} (hpos : 0 < k) (hk : k < 2 ^ 254) :
    (k : Residue n) ≠ 0 := by
  intro h
  have hval := congrArg val h
  rw [val_natCast_of_lt_two_pow hk, val_zero] at hval
  exact hpos.ne' hval

theorem two_ne_zero [PastaPrime n] : (2 : Residue n) ≠ 0 := by
  have htwo : ((2 : Nat) : Residue n) ≠ 0 := natCast_ne_zero (by decide) (by decide)
  simpa using htwo

theorem three_ne_zero [PastaPrime n] : (3 : Residue n) ≠ 0 := by
  have hthree : ((3 : Nat) : Residue n) ≠ 0 := natCast_ne_zero (by decide) (by decide)
  simpa using hthree

end Residue

end PallasCircuits
