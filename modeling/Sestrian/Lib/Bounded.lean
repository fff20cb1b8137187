import Sestrian.Lib.SumMap

/-!
# Bounded collections

A map that is cut to a size by erasing keys, and a set that remembers only its latest members.
-/

open Std

namespace Bounded

variable {κ ν : Type} [Ord κ] [TransOrd κ] [LawfulEqOrd κ] [DecidableEq κ]

/-! ## Maps -/

def without (m : ExtTreeMap κ ν) (ks : List κ) : ExtTreeMap κ ν := ks.foldl (fun m k => m.erase k) m

theorem get_without (m : ExtTreeMap κ ν) (ks : List κ) (k : κ) :
    (without m ks)[k]? = if k ∈ ks then none else m[k]? := by
  induction ks generalizing m with
  | nil => simp [without]
  | cons a ks ih =>
    change (without (m.erase a) ks)[k]? = _
    rw [ih, SumMap.get_erase]
    by_cases ha : a = k
    · simp [ha]
    · simp [ha, Ne.symm ha]

theorem mem_without {m : ExtTreeMap κ ν} {ks : List κ} {k : κ} : k ∈ without m ks ↔ k ∈ m ∧ k ∉ ks := by
  rw [ExtTreeMap.mem_iff_isSome_getElem?, get_without, ExtTreeMap.mem_iff_isSome_getElem?]
  split
  · next hk => simp [hk]
  · next hk => simp [hk]

omit [DecidableEq κ] in
/-- Distinct keys that are there make room, one place each. -/
theorem size_without {m : ExtTreeMap κ ν} {ks : List κ} (hks : ks.Nodup) (hin : ∀ k ∈ ks, k ∈ m) :
    (without m ks).size = m.size - ks.length := by
  induction ks generalizing m with
  | nil => rfl
  | cons a ks ih =>
    obtain ⟨ha, hks⟩ := List.nodup_cons.mp hks
    have hstep : (m.erase a).size = m.size - 1 := by
      rw [ExtTreeMap.size_erase, if_pos (ExtTreeMap.contains_iff_mem.mpr (hin a (List.mem_cons_self ..)))]
    have hin' : ∀ k ∈ ks, k ∈ m.erase a := by
      intro k hk
      refine ExtTreeMap.mem_erase.mpr ⟨fun hc => ha ?_, hin k (List.mem_cons_of_mem a hk)⟩
      rw [Std.compare_eq_iff_eq.mp hc]
      exact hk
    change (without (m.erase a) ks).size = _
    rw [ih hks hin', hstep, List.length_cons]
    omega

omit [LawfulEqOrd κ] [DecidableEq κ] in
theorem size_without_le (m : ExtTreeMap κ ν) (ks : List κ) : (without m ks).size ≤ m.size := by
  induction ks generalizing m with
  | nil => exact le_rfl
  | cons a ks ih => exact (ih (m.erase a)).trans ExtTreeMap.size_erase_le

/-! ## Sets of the latest members -/

structure Ring (cap : Nat) (seen : ExtTreeSet κ) (order : List κ) : Prop where
  same : ∀ a, a ∈ seen ↔ a ∈ order
  nodup : order.Nodup
  short : order.length ≤ cap

/-- A new member goes to the end, and what is too much at the front is forgotten. -/
theorem Ring.push {cap : Nat} {seen : ExtTreeSet κ} {order : List κ} (h : Ring cap seen order) {a : κ} (ha : a ∉ seen) :
    Ring cap (((order ++ [a]).take ((order ++ [a]).length - cap)).foldl (fun m old => m.erase old) (seen.insert a))
      ((order ++ [a]).drop ((order ++ [a]).length - cap)) := by
  generalize hn : (order ++ [a]).length - cap = n
  have hnodup : (order ++ [a]).Nodup := by
    refine List.nodup_append.mpr ⟨h.nodup, by simp, ?_⟩
    rintro x hx y hy rfl
    rw [List.mem_singleton.mp hy] at hx
    exact ha ((h.same a).mpr hx)
  have herased (ks : List κ) (m : ExtTreeSet κ) (x : κ) : x ∈ ks.foldl (fun m old => m.erase old) m ↔ x ∈ m ∧ x ∉ ks := by
    induction ks generalizing m with
    | nil => simp
    | cons k ks ih =>
      have hk : compare k x ≠ .eq ↔ x ≠ k := by rw [ne_eq, Std.compare_eq_iff_eq, eq_comm]
      rw [List.foldl_cons, ih, ExtTreeSet.mem_erase, List.mem_cons, not_or, hk]
      tauto
  have hall (x : κ) : x ∈ seen.insert a ↔ x ∈ order ++ [a] := by
    rw [ExtTreeSet.mem_insert, h.same, List.mem_append, List.mem_singleton, Std.compare_eq_iff_eq, or_comm, eq_comm]
  rw [← List.take_append_drop n (order ++ [a])] at hnodup
  obtain ⟨-, hdrop, hdisj⟩ := List.nodup_append.mp hnodup
  refine ⟨fun x => ?_, hdrop, ?_⟩
  · rw [herased, hall]
    constructor
    · rintro ⟨hx, hold⟩
      rw [← List.take_append_drop n (order ++ [a])] at hx
      exact (List.mem_append.mp hx).resolve_left hold
    · exact fun hx => ⟨List.mem_of_mem_drop hx, fun hold => hdisj x hold x hx rfl⟩
  · rw [List.length_drop]
    omega

end Bounded
