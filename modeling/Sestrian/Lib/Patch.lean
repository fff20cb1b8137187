import Mathlib.Data.List.Basic
import Mathlib.Tactic.Common

/-!
# Sparse writes to a vector

A patch writes to a few places of a list, no place twice. What it wrote can be read off
place by place, and writing the old values back undoes it.
-/

namespace Patch

variable {α ν : Type}

/-- The write that lands on place `j`. -/
def hit (idx : α → Nat) (cs : List α) (j : Nat) : Option α := cs.find? fun c => idx c = j

/-- No two writes land on one place. -/
def Distinct (idx : α → Nat) (cs : List α) : Prop := cs.Pairwise fun a b => idx a ≠ idx b

def modifyAll (idx : α → Nat) (f : α → ν → ν) (w : List ν) (cs : List α) : List ν :=
  cs.foldl (fun w c => w.modify (idx c) (f c)) w

def setAll (idx : α → Nat) (v : α → ν) (w : List ν) (cs : List α) : List ν :=
  cs.foldl (fun w c => w.set (idx c) (v c)) w

variable {idx : α → Nat} {f : α → ν → ν} {v : α → ν}

theorem setAll_eq_modifyAll (w : List ν) (cs : List α) :
    setAll idx v w cs = modifyAll idx (fun c _ => v c) w cs := by
  unfold setAll modifyAll
  congr 1
  funext w c
  apply List.ext_getElem?
  intro j
  rw [List.getElem?_set, List.getElem?_modify]
  by_cases h : idx c = j
  · by_cases hj : j < w.length <;> simp [h, hj]
  · simp [h]

@[simp]
theorem length_modifyAll (w : List ν) (cs : List α) : (modifyAll idx f w cs).length = w.length := by
  unfold modifyAll
  induction cs generalizing w with
  | nil => rfl
  | cons c cs ih => simp [ih]

theorem hit_mem {cs : List α} {j : Nat} {c : α} (h : hit idx cs j = some c) : c ∈ cs ∧ idx c = j := by
  have := List.find?_some h
  exact ⟨List.mem_of_find?_eq_some h, by simpa using this⟩

theorem hit_eq_none {cs : List α} {j : Nat} : hit idx cs j = none ↔ ∀ c ∈ cs, idx c ≠ j := by
  simp [hit]

theorem hit_of_mem {cs : List α} (hd : Distinct idx cs) {c : α} (hc : c ∈ cs) : hit idx cs (idx c) = some c := by
  induction cs with
  | nil => simp at hc
  | cons a cs ih =>
    obtain ⟨ha, hd⟩ := List.pairwise_cons.mp hd
    rcases List.mem_cons.mp hc with rfl | hc
    · simp [hit]
    · have hne : idx a ≠ idx c := ha c hc
      simpa [hit, hne] using ih hd hc

/-- Each place holds its old value, changed by the write that lands there. -/
theorem getElem?_modifyAll {cs : List α} (hd : Distinct idx cs) (w : List ν) (j : Nat) :
    (modifyAll idx f w cs)[j]? = match hit idx cs j with
      | some c => w[j]?.map (f c)
      | none => w[j]? := by
  induction cs generalizing w with
  | nil => rfl
  | cons c cs ih =>
    obtain ⟨hc, hd⟩ := List.pairwise_cons.mp hd
    rw [modifyAll, List.foldl_cons]
    refine (ih hd _).trans ?_
    by_cases h : idx c = j
    · -- no later write lands here
      have hn : hit idx cs j = none := hit_eq_none.mpr fun a ha => h ▸ (hc a ha).symm
      have hs : hit idx (c :: cs) j = some c := by simp [hit, h]
      simp [hn, hs, h]
    · have hs : hit idx (c :: cs) j = hit idx cs j := by simp [hit, h]
      simp [hs, h]

/-- Writing back what was there before takes a patch away. -/
theorem setAll_modifyAll {cs : List α} (hd : Distinct idx cs) (w : List ν)
    (hv : ∀ c ∈ cs, ∀ x, w[idx c]? = some x → v c = x) :
    setAll idx v (modifyAll idx f w cs) cs = w := by
  apply List.ext_getElem?
  intro j
  rw [setAll_eq_modifyAll, getElem?_modifyAll hd, getElem?_modifyAll hd]
  cases h : hit idx cs j with
  | none => rfl
  | some c =>
    obtain ⟨hc, rfl⟩ := hit_mem h
    cases hw : w[idx c]? with
    | none => simp
    | some x => simp [hv c hc x hw]

end Patch
