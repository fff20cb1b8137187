import Mathlib

/-!
# Sums over the values of an ordered map

`Std.ExtTreeMap` says what an insertion does to each key. A ledger also needs to
know what it does to the sum of all entries.
-/

open Std

namespace SumMap

variable {κ ν : Type} [Ord κ] [TransOrd κ] [LawfulEqOrd κ]

@[simp]
theorem get_insert [DecidableEq κ] (m : ExtTreeMap κ ν) (k k' : κ) (v : ν) :
    (m.insert k v)[k']? = if k = k' then some v else m[k']? := by
  simp [ExtTreeMap.getElem?_insert]

@[simp]
theorem get_erase [DecidableEq κ] (m : ExtTreeMap κ ν) (k k' : κ) :
    (m.erase k)[k']? = if k = k' then none else m[k']? := by
  simp [ExtTreeMap.getElem?_erase]

omit [LawfulEqOrd κ] in
theorem values_eq_map (m : ExtTreeMap κ ν) : m.values = m.toList.map Prod.snd := by
  obtain ⟨⟨q⟩⟩ := m
  induction q using Quotient.ind with
  | _ d =>
    change DTreeMap.Internal.Impl.values d.inner = (DTreeMap.Internal.Impl.Const.toList d.inner).map Prod.snd
    simp only [DTreeMap.Internal.Impl.values, DTreeMap.Internal.Impl.Const.toList,
      DTreeMap.Internal.Impl.foldr_eq_foldr]
    induction d.inner.toListModel with
    | nil => rfl
    | cons x l ih => simp [ih]

theorem mem_values {m : ExtTreeMap κ ν} {v : ν} : v ∈ m.values ↔ ∃ k : κ, m[k]? = some v := by
  simp [values_eq_map, ExtTreeMap.mem_toList_iff_getElem?_eq_some]

theorem toList_nodup (m : ExtTreeMap κ ν) : m.toList.Nodup := by
  apply (ExtTreeMap.distinct_keys_toList (t := m)).imp
  rintro a b hab rfl
  exact hab (by simp)

theorem toList_insert_perm (m : ExtTreeMap κ ν) (k : κ) (v : ν) :
    (m.insert k v).toList.Perm ((k, v) :: (m.erase k).toList) := by
  classical
  have hk : ¬ (k, v) ∈ (m.erase k).toList := by
    simp [ExtTreeMap.mem_toList_iff_getElem?_eq_some]
  refine (List.perm_ext_iff_of_nodup (toList_nodup _)
    (List.nodup_cons.mpr ⟨hk, toList_nodup _⟩)).mpr ?_
  rintro ⟨a, b⟩
  simp only [List.mem_cons, ExtTreeMap.mem_toList_iff_getElem?_eq_some, get_insert, get_erase,
    Prod.mk.injEq]
  by_cases h : k = a <;> simp [h, eq_comm]

theorem toList_perm_of_get (m : ExtTreeMap κ ν) (k : κ) (v : ν) (h : m[k]? = some v) :
    m.toList.Perm ((k, v) :: (m.erase k).toList) := by
  classical
  have : m.insert k v = m := by
    apply ExtTreeMap.ext_getElem?
    intro a
    rw [get_insert]
    split
    · next hk => rw [← hk, h]
    · rfl
  simpa [this] using toList_insert_perm m k v

/-- The sum of `f` over all values. -/
def sumBy (f : ν → Nat) (m : ExtTreeMap κ ν) : Nat := (m.toList.map fun e => f e.2).sum

omit [LawfulEqOrd κ] in
@[simp]
theorem sumBy_empty (f : ν → Nat) : sumBy f (∅ : ExtTreeMap κ ν) = 0 := by
  rw [sumBy, ExtTreeMap.toList_eq_nil_iff.mpr rfl]
  rfl

theorem sumBy_insert (f : ν → Nat) (m : ExtTreeMap κ ν) (k : κ) (v : ν) :
    sumBy f (m.insert k v) = f v + sumBy f (m.erase k) := by
  simpa [sumBy] using ((toList_insert_perm m k v).map fun e => f e.2).sum_eq

/-- The part of the sum under one key. -/
def at_key (f : ν → Nat) (m : ExtTreeMap κ ν) (k : κ) : Nat := (m[k]?.map f).getD 0

theorem sumBy_erase (f : ν → Nat) (m : ExtTreeMap κ ν) (k : κ) :
    sumBy f m = at_key f m k + sumBy f (m.erase k) := by
  classical
  cases h : m[k]? with
  | none =>
    have : m.erase k = m := by
      apply ExtTreeMap.ext_getElem?
      intro a
      rw [get_erase]
      split
      · next hk => rw [← hk, h]
      · rfl
    simp [at_key, h, this]
  | some v =>
    simpa [sumBy, at_key, h] using ((toList_perm_of_get m k v h).map fun e => f e.2).sum_eq

/-- An insertion changes the sum by the new value minus the value it replaces. -/
theorem sumBy_insert_add (f : ν → Nat) (m : ExtTreeMap κ ν) (k : κ) (v : ν) :
    sumBy f (m.insert k v) + at_key f m k = sumBy f m + f v := by
  rw [sumBy_insert, sumBy_erase f m k]
  omega

end SumMap
