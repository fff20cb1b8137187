import Sestrian.Code.Toy
import Sestrian.Code.Merkle
import Sestrian.Lib.PairTree

/-!
# Inclusion proofs of pages

The page tree is a tree of pairs under `node_hash`.
-/

namespace Sestrian

instance : Inhabited Hash := ⟨zero_hash⟩

namespace merkle

variable [Crypto]

theorem next_level_eq (level : List Hash) : next_level level = PairTree.up node_hash level := by
  induction level using next_level.induct with
  | case1 => rfl
  | case2 a => rfl
  | case3 a b rest ih =>
    unfold next_level
    rw [ih]
    rfl

theorem fold_levels_eq (n : Nat) (level : List Hash) : fold_levels n level = PairTree.top node_hash n level := by
  induction n generalizing level with
  | zero => rfl
  | succ n ih =>
    unfold fold_levels PairTree.top
    rw [next_level_eq, ih]
    rfl

theorem build_levels_eq (n : Nat) (level : List Hash) : build_levels n level = PairTree.levels node_hash n level := by
  induction n generalizing level with
  | zero => rfl
  | succ n ih =>
    unfold build_levels PairTree.levels
    rw [next_level_eq, ih]

omit [Crypto] in
theorem proof_from_eq (levels : List (List Hash)) (index : Nat) :
    proof_from levels index = PairTree.path_of levels index := by
  induction levels generalizing index with
  | nil => rfl
  | cons level rest ih =>
    unfold proof_from PairTree.path_of
    rw [ih]
    rfl

theorem verify_leaf_iff (leaf : Hash) (path : List (Bool × Hash)) (root : Hash) :
    verify_leaf leaf path root = true ↔ PairTree.climb node_hash leaf path = root := by
  have hstep : (fun h (s : Bool × Hash) => if s.1 then node_hash s.2 h else node_hash h s.2) = PairTree.step node_hash := by
    funext h s
    unfold PairTree.step PairTree.met
    split <;> rfl
  unfold verify_leaf
  rw [hstep, decide_eq_true_eq]
  rfl

/-- The pairs that the verification of `leaf` hashes do not collide with the pairs of the tree. -/
def NoForgery (leaves : List Hash) (leaf : Hash) (path : List (Bool × Hash)) : Prop :=
  ∀ p ∈ PairTree.climb_pairs node_hash leaf path, ∀ q ∈ PairTree.tree_pairs node_hash leaves.length leaves,
    node_hash p.1 p.2 = node_hash q.1 q.2 → p = q

/-- The last level is the root, every leaf's proof verifies, and a proof that verifies on the sides of a place proves
the leaf at that place. -/
theorem proofs_complete_and_binding (leaves : List Hash) (hne : leaves ≠ []) :
    (levels leaves).getLast? = some [root_from_hashes leaves] ∧
    (∀ i leaf, leaves[i]? = some leaf →
      verify_leaf leaf (proof (levels leaves) i) (root_from_hashes leaves) = true) ∧
    ∀ i leaf x path, leaves[i]? = some leaf → path.map Prod.fst = (proof (levels leaves) i).map Prod.fst →
      NoForgery leaves x path → verify_leaf x path (root_from_hashes leaves) = true → x = leaf := by
  unfold root_from_hashes levels proof NoForgery
  rw [fold_levels_eq, build_levels_eq]
  refine ⟨PairTree.levels_last le_rfl hne, fun i leaf h => ?_, fun i leaf x path h hsides hapart hverify => ?_⟩
  · rw [verify_leaf_iff, proof_from_eq]
    exact PairTree.climb_path_of le_rfl h
  · rw [proof_from_eq] at hsides
    exact PairTree.eq_of_climb le_rfl h hsides hapart ((verify_leaf_iff _ _ _).mp hverify)

/-- Where `node_hash` is injective on the pairs of the tree and of the path, no pairs collide. -/
theorem noForgery_of_injOn {leaves : List Hash} {x : Hash} {path : List (Bool × Hash)}
    (hinj : Set.InjOn (fun p : Hash × Hash => node_hash p.1 p.2)
      {p | p ∈ PairTree.climb_pairs node_hash x path ∨ p ∈ PairTree.tree_pairs node_hash leaves.length leaves}) :
    NoForgery leaves x path := fun _ hp _ hq he => hinj (.inl hp) (.inr hq) he

end merkle

open scoped Toy
namespace Toy

def three_leaves : List Hash := [merkle.leaf_hash [1], merkle.leaf_hash [2], merkle.leaf_hash [3]]

def last_path : List (Bool × Hash) := merkle.proof (merkle.levels three_leaves) 2

theorem last_path_apart : merkle.NoForgery three_leaves (merkle.leaf_hash [3]) last_path := by
  unfold merkle.NoForgery
  decide +kernel

end Toy

theorem proofs_complete_and_binding_three :
    (merkle.levels Toy.three_leaves).getLast? = some [merkle.root_from_hashes Toy.three_leaves] ∧
      merkle.verify_leaf (merkle.leaf_hash [3]) Toy.last_path (merkle.root_from_hashes Toy.three_leaves) = true ∧
      Toy.three_leaves[2]? = some (merkle.leaf_hash [3]) := by
  obtain ⟨hlast, hcomplete, hbinding⟩ := merkle.proofs_complete_and_binding Toy.three_leaves (List.cons_ne_nil _ _)
  have hverify := hcomplete 2 _ rfl
  have hleaf := hbinding 2 _ (merkle.leaf_hash [3]) Toy.last_path rfl rfl Toy.last_path_apart hverify
  exact ⟨hlast, hverify, congrArg some hleaf.symm⟩

end Sestrian
