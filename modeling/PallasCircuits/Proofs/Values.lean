import PallasCircuits.Proofs.Builder

namespace PallasCircuits

variable {n : Nat} {σ : Type}

namespace Run

/-! The values of a proving run. -/

structure Complete (s : Run n σ) : Prop where
  hasValues : s.hasValues = true
  publicValues : s.publicValues.size = s.publicSize
  nextVar : s.nextVar = s.publicSize + s.privateValues.size

def values (s : Run n σ) : List (Residue n) :=
  s.publicValues.toList ++ s.privateValues.toList

section

variable {s : Run n σ} (hs : s.publicValues.size = s.publicSize)

include hs

theorem lookup_eq_values (i : Nat) : s.lookup i = s.values[i]? := by
  unfold Run.lookup values
  split
  · next hi =>
      rw [List.getElem?_append_left (by rwa [Array.length_toList, hs]), Array.getElem?_toList]
  · next hi =>
      rw [List.getElem?_append_right (by rw [Array.length_toList, hs]; omega),
        Array.getElem?_toList, Array.length_toList, hs]

theorem valuesFrom_eq_take {count index : Nat} (h : index + count ≤ s.values.length) :
    s.valuesFrom count index = some ((s.values.drop index).take count) := by
  induction count generalizing index with
  | zero => rfl
  | succ count ih =>
      have hindex : index < s.values.length := by omega
      unfold Run.valuesFrom
      rw [lookup_eq_values hs, List.getElem?_eq_getElem hindex, ih (by omega),
        List.drop_eq_getElem_cons hindex]
      rfl

theorem witness?_eq_take (h : s.nextVar ≤ s.values.length) :
    s.witness? = some (s.values.take s.nextVar) := by
  unfold witness?
  rw [valuesFrom_eq_take hs (by rwa [Nat.zero_add]), List.drop_zero]

end

namespace Complete

variable {s : Run n σ} (hs : s.Complete)

include hs

theorem length_values : s.values.length = s.nextVar := by
  rw [values, List.length_append, Array.length_toList, Array.length_toList, hs.publicValues,
    hs.nextVar]

theorem lookup (i : Nat) : s.lookup i = s.values[i]? :=
  lookup_eq_values hs.publicValues i

theorem lookup_isSome {i : Nat} (hi : i < s.nextVar) : (s.lookup i).isSome = true := by
  have hlength : i < s.values.length := hs.length_values ▸ hi
  rw [hs.lookup, List.getElem?_eq_getElem hlength, Option.isSome_some]

theorem witness?_eq : s.witness? = some s.values := by
  rw [witness?_eq_take hs.publicValues (Nat.le_of_eq hs.length_values.symm), ← hs.length_values,
    List.take_length]

end Complete

theorem lookup_store {s : Run n σ} {values : List (Residue n)} {i : Nat} {a : Residue n}
    (h : s.lookup i = some a) :
    ({ s with
      nextVar := s.nextVar + values.length
      privateValues := s.privateValues ++ values } : Run n σ).lookup i = some a := by
  unfold lookup at h ⊢
  split at h
  · next hi => rwa [if_pos hi]
  · next hi =>
      obtain ⟨hsize, -⟩ := Array.getElem?_eq_some_iff.mp h
      rw [if_neg hi]
      change (s.privateValues ++ values)[i - s.publicSize]? = some a
      rw [← Array.getElem?_toList, Array.toList_appendList,
        List.getElem?_append_left (by rwa [Array.length_toList]), Array.getElem?_toList, h]

theorem Complete.store {s : Run n σ} (hs : s.Complete) (values : List (Residue n)) :
    ({ s with
      nextVar := s.nextVar + values.length
      privateValues := s.privateValues ++ values } : Run n σ).Complete where
  hasValues := hs.hasValues
  publicValues := hs.publicValues
  nextVar := by
    change s.nextVar + values.length = s.publicSize + (s.privateValues ++ values).size
    have hsize : (s.privateValues ++ values).size = s.privateValues.size + values.length := by
      rw [← Array.length_toList, Array.toList_appendList, List.length_append,
        Array.length_toList]
    rw [hs.nextVar, hsize, Nat.add_assoc]

end Run

end PallasCircuits
