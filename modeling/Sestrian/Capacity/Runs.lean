import Sestrian.Client.InPlace

/-!
# Runs of the fold

Blocks come at the heights 1, 2, 3 and so on. What one block does to the page table is said once,
for the counters, the growth that is due and the decision.
-/

namespace Sestrian.capacity

open client

/-- What a block gives the fold to read, besides its height. -/
structure FoldInput where
  n_txs : UInt64
  zero_scored : UInt64
  prev_hash : String
  score_sum : UInt64
  proposer : String

def fold_at (params : GenesisParams) (s : ModelState) (height : Nat) (i : FoldInput) : ModelState × List Activation :=
  fold s params (UInt64.ofNat height) i.n_txs i.zero_scored i.prev_hash i.score_sum i.proposer

/-- The state after these blocks, the first of which has height 1. -/
def folds (params : GenesisParams) (ins : List FoldInput) : ModelState :=
  (ins.zipIdx 1).foldl (fun s ih => (fold_at params s ih.2 ih.1).1) (ModelState.genesis params.spec)

variable {params : GenesisParams}

theorem folds_snoc (ins : List FoldInput) (i : FoldInput) :
    folds params (ins ++ [i]) = (fold_at params (folds params ins) (ins.length + 1) i).1 := by
  unfold folds
  rw [List.zipIdx_append, List.foldl_append, Nat.add_comm]
  rfl

theorem folds_folded (ins : List FoldInput) : Folded params (folds params ins) := by
  induction ins using List.reverseRecOn with
  | nil => exact .genesis
  | append_singleton ins i ih =>
    rw [folds_snoc]
    exact .fold ih ..

/-- What holds at genesis and is kept by every block holds of every run. -/
theorem folds_induction {P : Nat → ModelState → Prop} (h0 : P 0 (ModelState.genesis params.spec))
    (hstep : ∀ n s i, P n s → P (n + 1) (fold_at params s (n + 1) i).1) (ins : List FoldInput) :
    P ins.length (folds params ins) := by
  induction ins using List.reverseRecOn with
  | nil => exact h0
  | append_singleton ins i ih =>
    rw [folds_snoc, List.length_append]
    exact hstep _ _ _ ih

/-! ## One block -/

/-- A block of this height closes a window. -/
def Closes (params : GenesisParams) (height : Nat) : Prop :=
  UInt64.ofNat height > 0 ∧ UInt64.ofNat height % params.retarget_window = 0

instance (params : GenesisParams) (height : Nat) : Decidable (Closes params height) := by
  unfold Closes
  infer_instance

/-- The growth that the next window activates. -/
def due (s : ModelState) : List PendingGrowth := s.pending_growth.filter fun g => g.window ≤ s.window_id + 1

theorem fold_open {s : ModelState} {height : Nat} {i : FoldInput} (h : ¬ Closes params height) :
    fold_at params s height i = (fold_counters s params (UInt64.ofNat height) i.n_txs i.zero_scored i.score_sum
      i.proposer, []) := if_neg h

theorem fold_closes {s : ModelState} {height : Nat} {i : FoldInput} (h : Closes params height) :
    fold_at params s height i = fold_window params i.prev_hash
      (fold_counters s params (UInt64.ofNat height) i.n_txs i.zero_scored i.score_sum i.proposer) := if_pos h

theorem apply_decision_shape (prev_hash : String) (d : Decision) (s : ModelState) :
    (apply_decision params prev_hash d s).pages.map shape = s.pages.map shape := by
  simp only [apply_decision]
  split_ifs <;> simp [shape_set_status]

/-- The pages that a block appends are those of the growth that is due. -/
theorem fold_pages (s : ModelState) (height : Nat) (i : FoldInput) :
    (fold_at params s height i).1.pages.map shape =
      (activate_all params.spec s.pages (if Closes params height then due s else [])).1.map shape ∧
    (fold_at params s height i).2 =
      (activate_all params.spec s.pages (if Closes params height then due s else [])).2 := by
  by_cases h : Closes params height
  · rw [fold_closes h, if_pos h]
    exact ⟨apply_decision_shape _ _ _, rfl⟩
  · rw [fold_open h, if_neg h]
    exact ⟨rfl, rfl⟩

end Sestrian.capacity
