import Sestrian.Tree.Pages

/-!
# What the block tree is for

The tree keeps one vector and sparse records. What it stands for is plain: every accepted
block, applied whole to the weights of its parent, back to the genesis weights.
-/

namespace Sestrian

open Aggregate

variable [Crypto]

/-! ## Dense replay -/

/-- The body of a delta as a whole vector: the sparse one when the block has it, as
`body_coords` prefers it. -/
def dense_body (block : Block) (tx : BackpropTx) : List Int64 :=
  match block.sparse[tx.da_pointer]? with
  | some s => (List.range s.n).map (value_at s.coords)
  | none => body_of block tx

/-- The weights and the model after a block. -/
def dense_apply (params : GenesisParams) (s : List Int64 × ModelState) (block : Block) :
    List Int64 × ModelState :=
  let post := fold_block block s.2 params
  (paged_transition s.1 (block.txs.map (dense_body block)) (block.txs.map (·.canonical_pages)) s.2.spans ++
    (init_pages params post.2).flatten, post.1)

omit [Crypto] in
theorem length_paged_transition (w : List Int64) (bodies : List (List Int64)) (claims : List (List UInt32))
    (spans : List (Nat × Nat)) : (paged_transition w bodies claims spans).length = w.length := by
  have hstep (w : List Int64) (page : (Nat × Nat) × Nat) :
      (page_step bodies claims w page).length = w.length := by
    simp only [page_step]
    split <;> simp [add_at]
  unfold paged_transition
  induction spans.zipIdx generalizing w with
  | nil => rfl
  | cons page rest ih => rw [List.foldl_cons, ih, hstep]

theorem describes_dense_apply {params : GenesisParams} {s : List Int64 × ModelState}
    (h : Pages.Describes s.2 s.1.length) (block : Block) :
    Pages.Describes (dense_apply params s block).2 (dense_apply params s block).1.length := by
  have := h.fold block params
  simpa [dense_apply, length_paged_transition] using this

/-- The blocks of a chain applied in order to the genesis weights. -/
def replay (genesis_w : List Int64) (params : GenesisParams) (chain : List Block) :
    List Int64 × ModelState :=
  chain.foldl (dense_apply params) (genesis_w, ModelState.genesis params.spec)

/-- The blocks from genesis to `h`, genesis left out, by the parent each block names. -/
inductive Chain (log : Dict Block) (genesis : String) : String → List Block → Prop where
  | genesis : Chain log genesis genesis []
  | block {h : String} {b : Block} {chain : List Block} : h ≠ genesis → log[h]? = some b →
      Chain log genesis b.header.prev_hash chain → Chain log genesis h (chain ++ [b])

omit [Crypto] in
theorem Chain.unique {log : Dict Block} {g h : String} {c c' : List Block} (hc : Chain log g h c)
    (hc' : Chain log g h c') : c = c' := by
  induction hc generalizing c' with
  | genesis =>
    cases hc' with
    | genesis => rfl
    | block hne _ _ => exact absurd rfl hne
  | block hne hb _ ih =>
    cases hc' with
    | genesis => exact absurd rfl hne
    | block _ hb' hc' =>
      obtain rfl := Option.some.inj (hb.symm.trans hb')
      rw [ih hc']

/-! ## Runs of a full node -/

/-- A call on the tree. `prune_depth` and `hash_verified` are public fields that the node sets. -/
inductive Op where
  | add_block (b : Block)
  | with_state_at (target : String)
  | convict (h : String)
  | set_prune_depth (depth : Option UInt64)
  | mark_verified (txid : String)

namespace BlockTree

def step (t : BlockTree) : Op → BlockTree
  | .add_block b => (t.add_block b).2
  | .with_state_at target => (t.with_state_at target id).2
  | .convict h => (t.convict h).2
  | .set_prune_depth depth => { t with prune_depth := depth }
  | .mark_verified txid => { t with hash_verified := t.hash_verified.insert txid }

def run (t : BlockTree) (ops : List Op) : BlockTree := ops.foldl step t

end BlockTree

/-- The calls that deliver the blocks. -/
def deliver (blocks : List Block) : List Op := blocks.map .add_block

/-- Every call of the run meets `P` on the tree it finds. -/
def Along (P : BlockTree → Op → Prop) : BlockTree → List Op → Prop
  | _, [] => True
  | t, op :: ops => P t op ∧ Along P (t.step op) ops

theorem along_append {P : BlockTree → Op → Prop} {t : BlockTree} {ops ops' : List Op} :
    Along P t (ops ++ ops') ↔ Along P t ops ∧ Along P (t.run ops) ops' := by
  induction ops generalizing t with
  | nil => simp [Along, BlockTree.run]
  | cons op ops ih => simp only [List.cons_append, Along, ih, BlockTree.run, List.foldl_cons, and_assoc]

/-- A tree with the blocks it has accepted. The tree itself keeps their headers only. -/
structure Logged where
  tree : BlockTree
  log : Dict Block

namespace Logged

def new (genesis_w : List Int64) (data_contributor : Option String) (params : GenesisParams) : Logged :=
  { tree := .new genesis_w data_contributor params, log := ∅ }

/-- A block enters the log when it enters the tree. -/
def step (n : Logged) (op : Op) : Logged :=
  { tree := n.tree.step op
    log := match op with
      | .add_block b =>
        if b.hash ∉ n.tree.blocks ∧ b.hash ∈ (n.tree.step op).blocks then n.log.insert b.hash b else n.log
      | _ => n.log }

theorem step_convict (n : Logged) (h : String) : (n.step (.convict h)).tree = (n.tree.convict h).2 := rfl

def run (n : Logged) (ops : List Op) : Logged := ops.foldl step n

theorem run_one (n : Logged) (b : Block) : n.tree.run (deliver [b]) = (n.step (.add_block b)).tree := rfl

/-- The log only watches. -/
theorem run_tree (n : Logged) (ops : List Op) : (n.run ops).tree = n.tree.run ops := by
  induction ops generalizing n with
  | nil => rfl
  | cons op ops ih => exact ih (n.step op)

end Logged

/-! ## Bodies -/

omit [Crypto] in
theorem represents_sparse (s : SparseBody) : Represents s.coords ((List.range s.n).map (value_at s.coords)) := by
  refine ⟨s.sorted.imp fun {a b} h hab => absurd (UInt32.lt_iff_toNat_lt.mp h) (by simp [place] at hab; omega),
    fun j => ?_⟩
  by_cases hj : j < s.n
  · simp [List.getD_eq_getElem?_getD, hj]
  · have hz : value_at s.coords j = 0 := value_at_eq_zero fun c hc hcj => hj (hcj ▸ s.in_range c hc)
    simp [List.getD_eq_getElem?_getD, hj, hz]

omit [Crypto] in
theorem represents_dense (b : DenseBody) : Represents (dense_coords b.vals) b.vals := by
  have hplace : ∀ x ∈ b.vals.zipIdx.filter (fun x => x.1 ≠ 0),
      (UInt32.ofNat x.2).toNat = x.2 ∧ b.vals[x.2]? = some x.1 ∧ x.1 ≠ 0 := by
    intro x hx
    obtain ⟨hx, hne⟩ := List.mem_filter.mp hx
    have hget := List.mem_zipIdx_iff_getElem?.mp hx
    have hne : x.1 ≠ 0 := by simpa using hne
    refine ⟨toNat_ofNat (b.addressable x.2 ?_), hget, hne⟩
    simpa [List.getD_eq_getElem?_getD, hget] using hne
  have hd : Patch.Distinct place (dense_coords b.vals) := by
    refine List.pairwise_map.mpr ?_
    have hidx : (b.vals.zipIdx.map (·.2)).Nodup := by
      rw [List.zipIdx_map_snd]
      exact List.nodup_range'
    refine List.Pairwise.imp_of_mem ?_ ((List.pairwise_map.mp hidx).filter _)
    intro x y hx hy hxy hp
    simp only [place, (hplace x hx).1, (hplace y hy).1] at hp
    exact hxy hp
  refine ⟨hd, fun j => ?_⟩
  by_cases hz : b.vals.getD j 0 = 0
  · rw [hz, value_at_eq_zero]
    intro c hc hcj
    obtain ⟨x, hx, rfl⟩ := List.mem_map.mp hc
    obtain ⟨hp, hget, hne⟩ := hplace x hx
    rw [← hcj] at hz
    simp [place, hp, List.getD_eq_getElem?_getD, hget, hne] at hz
  · have hj := b.addressable j hz
    have hget : b.vals[j]? = some (b.vals.getD j 0) := by
      cases h : b.vals[j]? with
      | none => simp [List.getD_eq_getElem?_getD, h] at hz
      | some v => simp [List.getD_eq_getElem?_getD, h]
    have hmem : (UInt32.ofNat j, b.vals.getD j 0) ∈ dense_coords b.vals := by
      refine List.mem_map.mpr ⟨(b.vals.getD j 0, j), List.mem_filter.mpr ⟨?_, by simpa using hz⟩, rfl⟩
      exact List.mem_zipIdx_iff_getElem?.mpr hget
    have := Patch.hit_of_mem hd hmem
    rw [show place (UInt32.ofNat j, b.vals.getD j 0) = j from toNat_ofNat hj] at this
    simp [value_at, this]

omit [Crypto] in
/-- What the sparse path reads of a delta is its dense body. -/
theorem body_coords_spec {block : Block} {tx : BackpropTx} {n : Nat} {coords : List (UInt32 × Int64)}
    (h : body_coords block tx = .ok (n, coords)) :
    Represents coords (dense_body block tx) ∧ (dense_body block tx).length = n := by
  unfold body_coords at h
  unfold dense_body
  split at h
  · next s hs =>
    obtain ⟨rfl, rfl⟩ : s.n = n ∧ s.coords = coords := by simpa using h
    simpa [hs] using represents_sparse s
  · next hs =>
    obtain ⟨body, hb, h⟩ := (Check.bind_eq_ok _ _ _).mp h
    rw [Check.ok_or_eq_ok] at hb
    obtain ⟨rfl, rfl⟩ : body.vals.length = n ∧ dense_coords body.vals = coords := by simpa using h
    simpa [hs, body_of, hb] using represents_dense body

end Sestrian
