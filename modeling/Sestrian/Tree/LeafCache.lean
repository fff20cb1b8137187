import Sestrian.Tree.Fork

/-!
# The leaf cache

The cache is right at the head and after every rewind, as long as no call walks between two
branches that grew one page differently.
-/

open Walk Check

namespace Sestrian

open Aggregate Pages BlockTree

section Any

variable [Crypto]

variable {genesis_w : List Int64} {params : GenesisParams} {n : Logged} {S : String → List Int64 × ModelState}

/-! ## One call -/

/-- The call can move the leaf cache without losing it: a block with deltas can be addressed,
and a move to another branch meets no page that the branches grew differently. -/
def KeepsLeaves (t : BlockTree) : Op → Prop
  | .add_block b =>
    (b.txs ≠ [] → ∀ m, t.model[b.header.prev_hash]? = some m → m.dim < 2 ^ 32) ∧
      (b.header.prev_hash ≠ t.head → SameGrowth t b.header.prev_hash)
  | .convict h =>
    let t' := { t with convicted := t.convicted.insert h }
    h ∈ t.blocks → t'.is_convicted_line t.head → SameGrowth t t'.best_head
  | _ => True

/-- The cache is the leaves of the head. -/
def CacheRight (n : Logged) (S : String → List Int64 × ModelState) : Prop :=
  n.tree.page_leaves = leaves_for n.tree.canon (S n.tree.head).2

/-- Canon and the cache move together. -/
theorem Coherent.moved_leaves (hc : Coherent genesis_w params n S) (hr : CacheRight n S) {target : String}
    (hk : target ∈ n.tree.blocks) (hsame : target ≠ n.tree.head → SameGrowth n.tree target)
    (hkept : target ≠ n.tree.head → ∀ up down, n.tree.fork_walk target = .ok (up, down) →
      ∀ h ∈ up ++ down, h ∈ n.tree.undo) :
    n.tree.leaves_at S target = leaves_for (S target).1 (S target).2 := by
  unfold leaves_at
  split
  · next hhead => rw [hr, hhead, hc.canon]
  · next hne =>
    obtain ⟨up, down, hf⟩ := fork_walk_known hc.shape hk
    simp only [hf]
    exact hc.rewound_right hr hf (hkept hne up down hf) (hsame hne)

theorem CacheRight.connect (hr : CacheRight n S) (hc : Coherent genesis_w params n S) {b : Block} {p : Parent}
    {staged : Staged} (ha : n.tree.Accepts S b p staged) (hop : KeepsLeaves n.tree (.add_block b)) :
    CacheRight { tree := (n.tree.connected S b p staged).prune_deep, log := n.log.insert b.hash b }
      (Function.update S b.hash (dense_apply params (S b.header.prev_hash) b)) := by
  have hm := hc.model _ ha.parent_known
  have hd := hc.describes _ ha.parent_known
  have hpm : p.model = (S b.header.prev_hash).2 := Option.some.inj ((parent_entries_spec ha.entries).1.symm.trans hm)
  have hdim : b.txs ≠ [] → (S b.header.prev_hash).1.length < 2 ^ 32 := fun htxs =>
    tiled_table_end hd.tiled hd.pages_ne ▸ hop.1 htxs _ hm
  have hnew := staged_leaves ha.valid (hpm ▸ hd)
    (by rw [hpm]; exact hc.moved_leaves hr ha.parent_known hop.2 ha.kept) hdim
  have hst := hc.staged_eq ha
  unfold CacheRight
  simp only [prune_deep_frame, connected]
  split
  · rw [Function.update_self, ← hst]
    exact hnew
  · have hne : n.tree.head ≠ b.hash := fun he => ha.fresh (he ▸ hc.shape.head_known)
    rw [show (n.tree.recorded _ b staged (work_with p b)).head = n.tree.head from rfl, Function.update_of_ne hne]
    exact hr

theorem CacheRight.convict (hr : CacheRight n S) (hc : Coherent genesis_w params n S) {h : String}
    (hop : KeepsLeaves n.tree (.convict h)) : CacheRight { n with tree := (n.tree.convict h).2 } S := by
  rcases hc.convict_cases h with he | ⟨target, up, down, hf, -, hu, ⟨hh, hline⟩, htarget, he⟩
  · rw [he]
    exact hr
  · rw [he]
    exact hc.rewound_right hr hf hu (htarget ▸ hop hh hline)

/-- Every call that meets the condition keeps the cache. -/
theorem CacheRight.step (hr : CacheRight n S) (hc : Coherent genesis_w params n S) (op : Op)
    (hop : KeepsLeaves n.tree op) :
    ∃ S', Coherent genesis_w params (n.step op) S' ∧ CacheRight (n.step op) S' := by
  cases op with
  | add_block b =>
    rcases hc.add_block_cases b with ⟨e, he⟩ | ⟨-, he⟩ | ⟨p, staged, ha, he⟩
    · exact ⟨S, by simpa [Logged.step, BlockTree.step, he] using hc, by simpa [Logged.step, BlockTree.step, he] using hr⟩
    · exact ⟨S, by simpa [Logged.step, BlockTree.step, he] using hc, by simpa [Logged.step, BlockTree.step, he] using hr⟩
    · have hstep : n.step (.add_block b) =
          { tree := (n.tree.connected S b p staged).prune_deep, log := n.log.insert b.hash b } := by
        simp [Logged.step, BlockTree.step, he, ha.fresh, connected_frame]
      rw [hstep]
      exact ⟨_, hc.accept ha, hr.connect hc ha hop⟩
  | with_state_at target =>
    have hsame : n.step (.with_state_at target) = n := by
      rcases hc.with_state_at_cases target id with ⟨e, he⟩ | ⟨-, he⟩ <;> simp [Logged.step, BlockTree.step, he]
    rw [hsame]
    exact ⟨S, hc, hr⟩
  | convict h => exact ⟨S, hc.convict h, hr.convict hc hop⟩
  | set_prune_depth depth =>
    exact ⟨S, hc.congr_marks depth n.tree.hash_verified n.tree.convicted, hr⟩
  | mark_verified txid =>
    exact ⟨S, hc.congr_marks n.tree.prune_depth (n.tree.hash_verified.insert txid) n.tree.convicted, hr⟩

theorem CacheRight.run (hr : CacheRight n S) (hc : Coherent genesis_w params n S) (ops : List Op)
    (hops : Along KeepsLeaves n.tree ops) :
    ∃ S', Coherent genesis_w params (n.run ops) S' ∧ CacheRight (n.run ops) S' := by
  induction ops generalizing n S with
  | nil => exact ⟨S, hc, hr⟩
  | cons op ops ih =>
    obtain ⟨S', hc', hr'⟩ := hr.step hc op hops.1
    exact ih hr' hc' hops.2

/-! ## The whole run -/

/-- The cached leaves are those of canon under the model of block `h`. -/
def LeavesOf (t : BlockTree) (model : Dict ModelState) (h : String) : Prop :=
  ∃ m, model[h]? = some m ∧ t.page_leaves = leaves_for t.canon m

/-- The cache is right at the head, and after a rewind to each block that meets `P`. No block on
top of such a block is judged otherwise than by dense validation. -/
structure LeavesRight (t : BlockTree) (P : String → Prop) : Prop where
  head : LeavesOf t t.model t.head
  rewound : ∀ target plan t', P target → t.rewind_to target = (.ok plan, t') → LeavesOf t' t.model target
  verdict : ∀ b p plan t', P b.header.prev_hash → t.rewind_to b.header.prev_hash = (.ok plan, t') →
    t.parent_entries b.header.prev_hash = .ok p → p.model.dim < 2 ^ 32 → Truthful t.hash_verified b →
      ((∃ staged, t'.validate_at_base b p = .ok staged) ↔ ∃ r, t'.validate_dense b p = .ok r)

/-- In every run whose calls meet the condition, the cache is right wherever canon goes. -/
theorem leaf_cache_right (genesis_w : List Int64) (dc : Option String) (params : GenesisParams)
    (hw : genesis_w.length = (ModelState.genesis params.spec).dim) (ops : List Op)
    (hops : Along KeepsLeaves (BlockTree.new genesis_w dc params) ops) :
    let t := (BlockTree.new genesis_w dc params).run ops
    LeavesRight t (SameGrowth t) := by
  intro t
  have hnew : CacheRight (.new genesis_w dc params) fun _ => (genesis_w, ModelState.genesis params.spec) := rfl
  obtain ⟨S, hc, hr⟩ := hnew.run (coherent_new hw dc) ops hops
  have htree : ((Logged.new genesis_w dc params).run ops).tree = t := Logged.run_tree _ _
  have hmodel : ∀ h ∈ t.blocks, t.model[h]? = some (S h).2 := htree ▸ hc.model
  have hcanon : t.canon = (S t.head).1 := htree ▸ hc.canon
  have hrew : ∀ target plan t', SameGrowth t target → t.rewind_to target = (.ok plan, t') →
      target ∈ t.blocks ∧ t'.canon = (S target).1 ∧ t'.page_leaves = leaves_for t'.canon (S target).2 ∧
        t'.hash_verified = t.hash_verified := by
    intro target plan t' hsame hre
    rcases hc.rewind_cases target with ⟨e, he⟩ | ⟨up, down, hf, hk, hu, he⟩ <;> rw [htree, hre] at he
    · exact absurd (congrArg Prod.fst he) (by simp)
    · obtain rfl := (Prod.mk.inj he).2
      refine ⟨htree ▸ hk, rfl, ?_, rfl⟩
      have := hc.rewound_right hr hf hu (htree ▸ hsame)
      rwa [htree] at this
  refine ⟨⟨_, hmodel _ (htree ▸ hc.shape.head_known), htree ▸ hr⟩, fun target plan t' hsame hre => ?_,
    fun b p plan t' hsame hre hp hdim htrue => ?_⟩
  · obtain ⟨hk, -, hl, -⟩ := hrew target plan t' hsame hre
    exact ⟨_, hmodel _ hk, hl⟩
  · obtain ⟨hk, hcan, hl, hver⟩ := hrew _ plan t' hsame hre
    have hpm : p.model = (S b.header.prev_hash).2 :=
      Option.some.inj ((parent_entries_spec hp).1.symm.trans (hmodel _ hk))
    have hd : Describes p.model t'.canon.length := by
      rw [hpm, hcan]
      exact hc.describes _ (htree ▸ hk)
    have hready : Ready t' b p :=
      { (hver ▸ htrue : Truthful t'.hash_verified b) with
        describes := hd
        leaves := hpm ▸ hl
        dim := tiled_table_end hd.tiled hd.pages_ne ▸ hdim }
    exact hready.accepts_iff

end Any

open scoped Toy

/-- Blocks on genesis keep the leaf cache in any order. -/
theorem siblings_keep_leaves (pk pk' : ByteArr 32) :
    Along KeepsLeaves Toy.root (deliver [Toy.genesis.block pk, Toy.genesis.block pk']) := by
  have hg : Toy.genesis.hash = Toy.root.genesis_hash := (Toy.root_genesis.trans Toy.genesis_hash).symm
  have hc : Coherent [5] Toy.grow_params (.new [5] none Toy.grow_params) _ := coherent_new (by decide) none
  obtain ⟨S', hc', -⟩ := hc.step (.add_block (Toy.genesis.block pk))
  have hgrowth := hc'.sameGrowth_genesis
  rw [hc.step_genesis] at hgrowth
  refine ⟨⟨fun htxs => absurd rfl htxs, fun hne => ?_⟩, ⟨fun htxs => absurd rfl htxs, fun _ => ?_⟩, trivial⟩
  · exact absurd ((Toy.Spot.block_prev _ _).trans hg) hne
  · rw [Toy.Spot.block_prev, hg]
    exact hgrowth

/-- Two blocks on genesis, and the cache is right at the head and after a rewind to the other one. -/
theorem leaf_cache_right_siblings :
    let ops := deliver [Toy.genesis.block Toy.alpha, Toy.genesis.block Toy.beta]
    ([5] : List Int64).length = (ModelState.genesis Toy.grow_params.spec).dim ∧ Along KeepsLeaves Toy.root ops ∧
      LeavesRight (Toy.root.run ops) (SameGrowth (Toy.root.run ops)) := by
  intro ops
  have hkeeps := siblings_keep_leaves Toy.alpha Toy.beta
  exact ⟨by decide, hkeeps, leaf_cache_right [5] none Toy.grow_params (by decide) ops hkeeps⟩

/-- The page that both branches grew keeps the leaf of the branch canon came from. -/
theorem stale_leaf : refresh_leaves Toy.b₃.weights (leaves_for Toy.a₃.weights Toy.a₃.parent.model)
    Toy.b₃.parent.model [] ≠ leaves_for Toy.b₃.weights Toy.b₃.parent.model := by
  decide +kernel

theorem grown_page_goes_stale :
    ¬ LeavesRight (Toy.root.run (deliver (Toy.alpha_branch ++ Toy.beta_branch))) fun _ => True := by
  intro hright
  obtain ⟨S, h⟩ := Toy.knows_both
  rw [← Toy.root_run_tree] at hright
  obtain ⟨plan, t', hr, hm, hcanon, hleaves⟩ := h.rewound (s := Toy.b₃) (by simp)
  obtain ⟨m, hm', hl⟩ := hright.rewound _ _ _ trivial hr
  obtain rfl := Option.some.inj (hm.symm.trans hm')
  rw [hcanon, hleaves] at hl
  exact stale_leaf hl

end Sestrian
