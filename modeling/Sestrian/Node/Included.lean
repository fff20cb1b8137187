import Sestrian.Node.Early
import Sestrian.Node.Genuine

/-!
# Included bodies stay on disk

A run of a fresh archive node that is never offered a delta late keeps the body of every
delta in its tree. A delta that arrives after its block is let in again, and when it leaves
the window its body goes with it.
-/

open Check

namespace Sestrian

open BlockTree Store

section Any

variable [Crypto] [Serde]

namespace Node

variable {s s' : Node} {env : Env}

/-! ## Runs from a fresh node -/

/-- The tree a node boots with on an empty log. -/
def boot_tree (genesis_w : List Int64) (dc : Option String) (params : GenesisParams) (depth : Option UInt64) :
    BlockTree :=
  { BlockTree.new genesis_w dc params with prune_depth := depth }

/-- Enough shards of the body are there, and nothing else under their names, so it can be read back. -/
structure Holds (body : String → Payload) (st : Store) (id : String) : Prop where
  enough : DA_K ≤ (st.dir id).shards.size
  genuine : da.Encoded (Serde.to_vec (body id)) DA_K DA_N (st.dir id).shards
  read : st.reconstruct_payload id = some (body id)

end Node

end Any

open scoped Toy

namespace Toy

def node₁ : Node := node₀.handle (env, first)
theorem quiet₀ : node₀.Quiet owned ∅ := ⟨rfl, rfl, rfl, rfl⟩

theorem serde_zero : Serde.from_slice (Serde.to_vec zero_payload) = some zero_payload := by
  simp [Serde.from_slice, Serde.to_vec]

theorem zero_ne : zero_block.hash ≠ owned.head := by
  intro he
  have hdist := hashes_distinct
  simp [he] at hdist

theorem zero_work : (1 : UInt64) = saturating_add owned_parent.work (max zero_block.header.work 1) := by
  have hw : zero_block.header.work = 1 := attempt_work_last _
  rw [hw]
  rfl

theorem zero_low : zero_block.header.height ≤ 129 := by
  have hh : zero_block.header.height = 1 := rfl
  rw [hh]
  decide

theorem quiet₁ : node₁.Quiet owned₁ ∅ ∧ node₁.seen = node₀.seen ∧
    node₁.blocks_full = node₀.blocks_full.insert zero_stored.hash zero_stored := by
  have hprev : zero_block.header.prev_hash = owned.head := rfl
  have hstep : node₁ = node₀.handle_sync_batch env "peer" [zero_stored] [(zero_id, zero_payload)] := rfl
  rw [hstep]
  exact Node.sync_one quiet₀ rfl rfl owned_tip zero_txids rfl serde_zero (fun m hm => zero_decodes hm)
    (fun hm => zero_ne (List.mem_singleton.mp hm)) hprev zero_work owned_takes zero_ne zero_low rfl

theorem tip₁ : Tip owned₁ parent₁ [zero_block.hash, owned.head] := owned_tip.commit 1

def model₁ : ModelState := (delta_staged owned owned_parent zero_draft zero_body.coords).post_model

theorem model_at₁ : owned₁.model[owned₁.head]? = some model₁ := by
  obtain ⟨jurors, he⟩ := tip₁.entries
  exact (parent_entries_spec he).1

/-- The gate of the head's model lets the zero delta through. -/
theorem zero_fits : Node.takes_zero model₁ (zero_tx (key 7)) zero_payload = true := by decide +kernel

theorem head_at₁ {s : Node} (htree : s.tree = owned₁) : s.head_height = 1 := by
  rw [Node.head_height_commit owned (delta_staged owned owned_parent zero_draft zero_body.coords) 1 htree]
  rfl

/-- The delta of the first block passes for a new one. -/
theorem zero_admits {s : Node} (htree : s.tree = owned₁) (hseen : (zero_tx (key 7)).txid ∉ s.seen) :
    s.admits (zero_tx (key 7)) zero_payload = true := by
  have hmodel : s.tree.model[s.tree.head]? = some model₁ := by
    rw [htree]
    exact model_at₁
  have hfits := Node.fits_zero hmodel zero_fits
  have hhash : delta_hash_sparse zero_payload.n [] = (zero_tx (key 7)).delta_hash := by
    unfold zero_payload zero_tx zero_unsigned
    rfl
  have hwin : delta_in_window (zero_tx (key 7)).base_height s.head_height = true := by
    rw [head_at₁ htree, show (zero_tx (key 7)).base_height = 0 from rfl]
    decide
  exact Node.admits_of hseen (zero_tx_signed (key 7)) zero_coords hhash hwin hfits

theorem second_ne : second.hash ∉ [zero_block.hash, owned.head] ∧ third.hash ∉ [second.hash, zero_block.hash, owned.head] := by
  have hdist := hashes_distinct
  simp only [List.nodup_cons, List.mem_cons, not_or, List.not_mem_nil, not_false_eq_true, and_true] at hdist ⊢
  obtain ⟨⟨h1, h2, h3⟩, ⟨h4, h5⟩, h6, -⟩ := hdist
  exact ⟨⟨Ne.symm h4, Ne.symm h2⟩, Ne.symm h6, Ne.symm h5, Ne.symm h3⟩

theorem head_marked₁ : marked₁.head = zero_block.hash := by
  have h : owned₁.head = zero_block.hash :=
    Node.head_commit owned (delta_staged owned owned_parent zero_draft zero_body.coords) 1
  exact h

theorem zero_in_window {id : String} {tx : BackpropTx}
    (h : ((∅ : Dict BackpropTx).insert (zero_tx (key 7)).txid (zero_tx (key 7)))[id]? = some tx) : tx.base_height = 0 := by
  rw [SumMap.get_insert] at h
  split at h
  · rw [← Option.some.inj h]
    rfl
  · simp at h

theorem second_valid (jurors : StrSet) : marked₁.validate_at_base second { parent₁ with jurors } =
    .ok (empty_staged marked₁ parent₁ second) := by
  unfold second
  exact block_by_jurors marked₁ parent₁ zero_block.hash (key 7) jurors

theorem second_decodes (m : Dict Payload) : (Node.empty_stored second.header).to_core_sparse m = some second := by
  unfold second
  exact block_by_decodes marked₁ parent₁ zero_block.hash (key 7) m

theorem second_height : second.header.height = 2 := by
  unfold second
  rfl

theorem second_work : (2 : UInt64) = saturating_add parent₁.work (max second.header.work 1) := by
  unfold second
  rw [block_by_work]
  rfl

theorem second_prev : second.header.prev_hash = marked₁.head := by
  rw [head_marked₁]
  unfold second
  rfl

/-- The pool with one entry. -/
def zero_pool : Dict BackpropTx := (∅ : Dict BackpropTx).insert (zero_tx (key 7)).txid (zero_tx (key 7))

theorem zero_pool_small : zero_pool.size ≤ MAX_DELTA_POOL := by
  rw [zero_pool, Std.ExtTreeMap.size_insert]
  simp [MAX_DELTA_POOL]

theorem zero_young (id : String) (tx : BackpropTx) (hid : zero_pool[id]? = some tx) :
    delta_in_window tx.base_height second.header.height := by
  rw [zero_in_window hid, second_height]
  decide

theorem second_moves : second.hash ≠ marked₁.head := by
  rw [head_marked₁]
  exact (List.ne_of_not_mem_cons second_ne.1)

theorem second_low : second.header.height ≤ 129 := by
  rw [second_height]
  decide

/-- A block, its delta, and two blocks more. -/
def late_run : List (Env × Node.Msg) :=
  [(env, first), (env, .Dtx (.from_core (zero_tx (key 7))) zero_payload),
    (env, .Blk (Node.empty_stored second.header) none), (env, .Blk (Node.empty_stored third.header) none)]

end Toy

end Sestrian
