import Sestrian.Lib.Walk
import Sestrian.Code.Validate

/-!
# The block tree (`blocktree.rs`)

One weight vector, `canon`, is moved from block to block by sparse undo and redo records.
A function that changes the tree returns the tree after it, also when it fails. A map or
vector index that misses panics in the source. Here it is the error `panicked`.
-/

open Check Walk

namespace Sestrian

variable [Crypto]

/-- `BTreeMap<u32, i64>`. -/
abbrev Coords := Std.ExtTreeMap UInt32 Int64 compare

def panicked : String := "panicked: no entry for key or index"

/-! ## Aggregation -/

def dense_coords (body : List Int64) : List (UInt32 × Int64) :=
  (body.zipIdx.filter fun x => x.1 ≠ 0).map fun x => (UInt32.ofNat x.2, x.1)

/-- The sparse body of the block when there is one, else the nonzero entries of the dense one. -/
def body_coords (block : Block) (tx : BackpropTx) : Validation (Nat × List (UInt32 × Int64)) :=
  match block.sparse[tx.da_pointer]? with
  | some s => pure (s.n, s.coords)
  | none => do
    let body ← ok_or block.bodies[tx.da_pointer]? "missing DA body"
    pure (body.vals.length, dense_coords body.vals)

def touch (start stop k slot : Nat) (touched : Std.ExtTreeMap UInt32 (List Int64) compare)
    (c : UInt32 × Int64) : Std.ExtTreeMap UInt32 (List Int64) compare :=
  if start ≤ c.1.toNat ∧ c.1.toNat < stop ∧ c.2 ≠ 0 then
    touched.insert c.1 ((touched[c.1]?.getD (List.replicate k 0)).set slot c.2)
  else touched

/-- The column of each coordinate of the span that a claimant touched. -/
def touched_columns (claimants : List (List (UInt32 × Int64))) (start stop : Nat) :
    Std.ExtTreeMap UInt32 (List Int64) compare :=
  claimants.zipIdx.foldl (fun m cs => cs.1.foldl (touch start stop claimants.length cs.2) m) ∅

def add_mean (agg : Coords) (col : UInt32 × List Int64) : Coords :=
  if trimmed_mean_scalar col.2 ≠ 0 then agg.insert col.1 (trimmed_mean_scalar col.2) else agg

def claimants_of (block : Block) (tx_coords : List (List (UInt32 × Int64))) (page_id : Nat) :
    List (List (UInt32 × Int64)) :=
  ((block.txs.zip tx_coords).filter fun tc => tc.1.canonical_pages.contains (UInt32.ofNat page_id)).map (·.2)

def aggregate_page (block : Block) (tx_coords : List (List (UInt32 × Int64))) (agg : Coords)
    (page : (Nat × Nat) × Nat) : Coords :=
  (touched_columns (claimants_of block tx_coords page.2) page.1.1 page.1.2).toList.foldl add_mean agg

def page_aggregate (block : Block) (spans : List (Nat × Nat)) (tx_coords : List (List (UInt32 × Int64))) :
    Coords :=
  spans.zipIdx.foldl (aggregate_page block tx_coords) ∅

/-! ## Page leaves -/

/-- The entries of `agg.range(start as u32..end as u32)`. The source panics when the casts put
the ends in the wrong order, which takes a span across `2^32`. -/
def coord_range (agg : Coords) (start stop : Nat) : List (UInt32 × Int64) :=
  agg.toList.filter fun c => UInt32.ofNat start ≤ c.1 ∧ c.1 < UInt32.ofNat stop

def leaf_with_subs (canon : List Int64) (start stop : Nat) (subs : Coords) : Hash :=
  merkle.leaf_hash (int64_bytes ((slice canon start stop).mapIdx fun j x =>
    match subs[UInt32.ofNat (start + j)]? with
    | some m => x + m
    | none => x))

def page_leaf (w : List Int64) (p : Page) : Hash := merkle.leaf_hash (int64_bytes (slice w p.start p.stop))

def leaves_for (w : List Int64) (model : ModelState) : List Hash := model.pages.map (page_leaf w)

/-! ## Sparse records -/

/-- `canon[i] += m` for each pair. -/
def apply_redo (w : List Int64) (redo : List (UInt32 × Int64)) : List Int64 :=
  redo.foldl (fun w c => w.modify c.1.toNat (· + c.2)) w

/-- `canon[i] = old` for each pair. -/
def apply_undo (w : List Int64) (undo : List (UInt32 × Int64)) : List Int64 :=
  undo.foldl (fun w c => w.set c.1.toNat c.2) w

/-- The values that the aggregate is about to change. -/
def undo_of (canon : List Int64) (agg : Coords) : List (UInt32 × Int64) :=
  agg.toList.map fun c => (c.1, canon.getD c.1.toNat 0)

/-! ## The tree -/

structure BlockTree where
  blocks : Dict Header
  ledger : Dict TokenLedger
  model : Dict ModelState
  cum_work : Dict UInt64
  head : String
  genesis_hash : String
  data_contributor : Option String
  params : GenesisParams
  prune_depth : Option UInt64
  canon : List Int64
  page_leaves : List Hash
  undo : Dict (List (UInt32 × Int64) × List Int64)
  redo : Dict (List (UInt32 × Int64))
  genesis_pin : Option (List Int64)
  hash_verified : StrSet
  held : Option (List Nat)
  page_base : List (Option Nat)
  convicted : StrSet

structure Staged where
  agg : Coords
  init_pages : List (List Int64)
  new_leaves : List Hash
  led : TokenLedger
  post_model : ModelState

structure RewindPlan where
  up : List String
  down : List String
  saved_leaves : List Hash

def GENESIS_PIN_MAX_BYTES : Nat := 64 * 1024 * 1024

/-- The source asserts that the weights have the length of the page table. -/
def genesis_header (genesis_w : List Int64) (params : GenesisParams) : Header :=
  let model0 := ModelState.genesis params.spec
  { height := 0, prev_hash := String.ofList (List.replicate 64 '0'),
    state_root := page_state_root genesis_w model0, txset_root := sha256_hex [], n_txs := 0, work := 0,
    proposer := "genesis", transfer_root := "", ledger_root := "", data_root := "", vrf_proof := "",
    score_root := "", sketch_root := "", model_root := model0.model_root, vrf_attempt := 0, version := 1 }

def genesis_ledger (data_contributor : Option String) : TokenLedger :=
  match data_contributor with
  | some dc => TokenLedger.new.seed_genesis_data dc
  | none => TokenLedger.new

namespace BlockTree

def new (genesis_w : List Int64) (data_contributor : Option String) (params : GenesisParams) : BlockTree :=
  let gh := genesis_header genesis_w params
  let ghash := gh.block_hash
  let model0 := ModelState.genesis params.spec
  { blocks := (∅ : Dict Header).insert ghash gh
    ledger := (∅ : Dict TokenLedger).insert ghash (genesis_ledger data_contributor)
    model := (∅ : Dict ModelState).insert ghash model0
    cum_work := (∅ : Dict UInt64).insert ghash 0
    head := ghash
    genesis_hash := ghash
    data_contributor
    params
    prune_depth := none
    canon := genesis_w
    page_leaves := leaves_for genesis_w model0
    undo := ∅
    redo := ∅
    genesis_pin := if genesis_w.length * 8 ≤ GENESIS_PIN_MAX_BYTES then some genesis_w else none
    hash_verified := ∅
    held := none
    page_base := []
    convicted := ∅ }

def head_state (t : BlockTree) : List Int64 := t.canon

/-- `blocks[&cur].prev_hash`. -/
def parent (t : BlockTree) (cur : String) : Option String := t.blocks[cur]?.map (·.prev_hash)

/-- More steps than any line of the tree has. -/
def walk_fuel (t : BlockTree) : Nat := t.blocks.size + 1

def recent_proposers (t : BlockTree) (tip : String) : StrSet :=
  let passed := (walk t.parent (· = t.genesis_hash) PROPOSER_LOOKBACK tip).1
  (passed.filterMap fun cur => t.blocks[cur]?.map (·.proposer)).foldl (fun s p => s.insert p) ∅

/-- The root and the leaves of canon with an aggregate and growth pages applied. -/
def state_root_with (t : BlockTree) (spans : List (Nat × Nat)) (agg : Coords) (init_pages : List (List Int64)) :
    String × List Hash :=
  let rehash (leaves : List Hash) (page : (Nat × Nat) × Nat) : List Hash :=
    if coord_range agg page.1.1 page.1.2 ≠ [] then
      leaves.set page.2 (leaf_with_subs t.canon page.1.1 page.1.2 agg)
    else leaves
  let new_leaves := spans.zipIdx.foldl rehash t.page_leaves ++
    init_pages.map fun ip => merkle.leaf_hash (int64_bytes ip)
  (hex_encode (merkle.root_from_hashes new_leaves).val, new_leaves)

/-- What a block needs of its parent. -/
structure Parent where
  model : ModelState
  ledger : TokenLedger
  height : UInt64
  work : UInt64
  jurors : StrSet

def parent_entries (t : BlockTree) (hash : String) : Validation Parent := do
  let model ← ok_or t.model[hash]? "orphan: parent unknown"
  let ledger ← ok_or t.ledger[hash]? panicked
  let header ← ok_or t.blocks[hash]? panicked
  let work ← ok_or t.cum_work[hash]? panicked
  pure { model, ledger, height := header.height, work, jurors := t.recent_proposers hash }

/-- The body rules of one delta, from its sparse coordinates. -/
def check_sparse_tx (t : BlockTree) (block : Block) (parent_model : ModelState) (tx : BackpropTx) :
    Validation (List (UInt32 × Int64)) := do
  let (n, coords) ← body_coords block tx
  require (n = t.canon.length) "delta body length != model dimension"
  require (tx.txid ∈ t.hash_verified ∨ delta_hash_sparse n coords = tx.delta_hash) "delta body hash mismatch"
  check_claims parent_model tx
  require (∀ c ∈ coords, c.2 ≠ 0 → in_claims parent_model tx.canonical_pages c.1.toNat)
    "delta body nonzero outside claimed pages"
  check_quota parent_model t.params tx (coords.filter fun c => c.2 ≠ 0).length
  pure coords

def validate_at_base (t : BlockTree) (block : Block) (p : Parent) : Validation Staged := do
  let tx_coords ← block.txs.mapM (t.check_sparse_tx block p.model)
  let v ← validate_inner block none p.height p.ledger t.data_contributor p.jurors p.model t.params
  let agg := page_aggregate block p.model.spans tx_coords
  let init_pages := init_pages t.params v.activations
  let (root, new_leaves) := t.state_root_with p.model.spans agg init_pages
  require (root = block.header.state_root) "state_root does not reproduce from txs"
  pure { agg, init_pages, new_leaves, led := v.ledger, post_model := v.model }

/-! ## Pruning -/

def saturating_sub (a b : UInt64) : UInt64 := if b ≤ a then a - b else 0

/-- The block is below the undo window, or unknown. -/
def is_doomed (t : BlockTree) (floor : UInt64) (h : String) : Bool :=
  (t.blocks[h]?.map fun hdr => decide (hdr.height < floor)).getD true

def prune_deep (t : BlockTree) : BlockTree :=
  match t.prune_depth with
  | none => t
  | some depth =>
    let floor := saturating_sub ((t.blocks[t.head]?.map (·.height)).getD 0) depth
    let doomed := t.undo.keys.filter (t.is_doomed floor)
    let oversized := t.genesis_pin.any fun g => g.length * 8 > GENESIS_PIN_MAX_BYTES
    { t with
      undo := doomed.foldl (fun m h => m.erase h) t.undo
      redo := doomed.foldl (fun m h => m.erase h) t.redo
      genesis_pin := if 0 < floor ∧ oversized then none else t.genesis_pin }

/-! ## Connecting a block -/

/-- The entries every connected block leaves: records relative to its parent, at which canon
stands, and what fork choice needs. -/
def record (t : BlockTree) (bh : String) (header : Header) (staged : Staged) (work : UInt64) : BlockTree :=
  { t with
    undo := t.undo.insert bh (undo_of t.canon staged.agg, staged.init_pages.flatten)
    redo := t.redo.insert bh staged.agg.toList
    blocks := t.blocks.insert bh header
    ledger := t.ledger.insert bh staged.led
    model := t.model.insert bh staged.post_model
    cum_work := t.cum_work.insert bh work }

def commit_staged (t : BlockTree) (bh : String) (header : Header) (staged : Staged) (work : UInt64) :
    BlockTree :=
  let t := t.record bh header staged work
  prune_deep { t with
    canon := apply_redo t.canon staged.agg.toList ++ staged.init_pages.flatten
    page_leaves := staged.new_leaves
    head := bh }

def connect_extend (t : BlockTree) (block : Block) : Validation Bool × BlockTree :=
  match t.parent_entries t.head with
  | .error e => (.error e, t)
  | .ok p =>
    match t.validate_at_base block p with
    | .error e => (.error e, t)
    | .ok staged =>
      let work := saturating_add p.work (max block.header.work 1)
      (.ok true, t.commit_staged block.hash block.header staged work)

/-! ## Moving canon -/

/-- Back over one block: cut its growth tail, then put the old values back. -/
def unwind (t : BlockTree) (w : List Int64) (h : String) : List Int64 :=
  let (undo, tail) := t.undo[h]?.getD ([], [])
  apply_undo (w.take (w.length - tail.length)) undo

/-- Forward over one block. -/
def replay_record (t : BlockTree) (w : List Int64) (h : String) : List Int64 :=
  apply_redo w (t.redo[h]?.getD []) ++ (t.undo[h]?.getD ([], [])).2

/-- The blocks to leave, head first, and the blocks to enter, target first. Both lists stop at
the last common block. -/
def fork_walk (t : BlockTree) (target : String) : Validation (List String × List String) := do
  let to_genesis := walk t.parent (· = t.genesis_hash) t.walk_fuel t.head
  let on_head := to_genesis.1 ++ [to_genesis.2]
  let (down, common) := walk t.parent (on_head.contains ·) t.walk_fuel target
  require (common ∈ on_head) "orphan: parent unknown"
  let up := (walk t.parent (· = common) t.walk_fuel t.head).1
  pure (up, down)

def coord_page (model : ModelState) (i : UInt32) : Option Nat :=
  model.pages.findIdx? fun p => p.start ≤ i.toNat ∧ i.toNat < p.stop

def touched_pages (t : BlockTree) (model : ModelState) (walked : List String) : List Nat :=
  walked.flatMap fun h => (t.redo[h]?.getD []).filterMap fun c => coord_page model c.1

/-- The leaf cache after a walk: pages that a walked block touched, or that the old cache
does not have, are hashed again. -/
def refresh_leaves (canon : List Int64) (saved_leaves : List Hash) (model : ModelState)
    (touched : List Nat) : List Hash :=
  let leaves := saved_leaves.take model.pages.length ++
    List.replicate (model.pages.length - saved_leaves.length) zero_hash
  (model.pages.zip leaves).mapIdx fun pid pl =>
    if pid ∈ touched ∨ saved_leaves.length ≤ pid ∨ canon.length < pl.1.stop ∨ pl.2 = zero_hash then
      page_leaf canon pl.1
    else pl.2

def rewind_to (t : BlockTree) (target : String) : Validation RewindPlan × BlockTree :=
  match t.fork_walk target with
  | .error e => (.error e, t)
  | .ok (up, down) =>
    if ∃ h ∈ up ++ down, ¬ (t.undo.contains h ∧ t.redo.contains h) then
      (.error "parent state beyond the undo window", t)
    else match t.model[target]? with
      | none => (.error panicked, t)
      | some target_model =>
        let canon := down.reverse.foldl t.replay_record (up.foldl t.unwind t.canon)
        let leaves := refresh_leaves canon t.page_leaves target_model (t.touched_pages target_model (up ++ down))
        (.ok { up, down, saved_leaves := t.page_leaves }, { t with canon, page_leaves := leaves })

def roll_forward (t : BlockTree) (plan : RewindPlan) : BlockTree :=
  { t with
    canon := plan.up.reverse.foldl t.replay_record (plan.down.foldl t.unwind t.canon)
    page_leaves := plan.saved_leaves }

/-- Fork choice between a side block and the head. -/
def outweighs (t : BlockTree) (bh : String) (work : UInt64) : Bool :=
  let head_work := t.cum_work[t.head]?.getD 0
  work > head_work || (work == head_work && decide (bh < t.head))

def connect_side (t : BlockTree) (block : Block) : Validation Bool × BlockTree :=
  let bh := block.hash
  match t.parent_entries block.header.prev_hash with
  | .error e => (.error e, t)
  | .ok p =>
    match t.rewind_to block.header.prev_hash with
    | (.error e, t) => (.error e, t)
    | (.ok plan, t) =>
      match t.validate_at_base block p with
      | .error e => (.error e, t.roll_forward plan)
      | .ok staged =>
        let work := saturating_add p.work (max block.header.work 1)
        if t.outweighs bh work then (.ok true, t.commit_staged bh block.header staged work)
        else (.ok false, ((t.record bh block.header staged work).roll_forward plan).prune_deep)

/-- The weights at a block, computed on a copy. -/
def state_at (t : BlockTree) (target : String) : Validation (List Int64) := do
  let (up, branch) ← t.fork_walk target
  require (∀ h ∈ up, t.undo.contains h) "parent state beyond the undo window"
  require (∀ h ∈ branch, t.redo.contains h) "parent state beyond the undo window"
  pure (branch.reverse.foldl t.replay_record (up.foldl t.unwind t.canon))

def with_state_at {R : Type} (t : BlockTree) (target : String) (f : List Int64 → R) :
    Validation R × BlockTree :=
  match t.rewind_to target with
  | (.error e, t) => (.error e, t)
  | (.ok plan, t) => (.ok (f t.canon), t.roll_forward plan)

/-! ## Paged nodes -/

/-- The aggregate of a held page, keyed by the place of each coordinate in the compact canon. -/
def compact_subs (agg : Coords) (start stop base : Nat) : Coords :=
  (coord_range agg start stop).foldl
    (fun m c => m.insert (UInt32.ofNat base + (c.1 - UInt32.ofNat start)) c.2) ∅

/-- The leaf of one page after the block: computed when the page is held, else the witness. -/
def paged_leaf (t : BlockTree) (agg : Coords) (witness_leaves leaves : List Hash) (page : (Nat × Nat) × Nat) :
    Validation (List Hash) := do
  let (start, stop) := page.1
  match ← ok_or t.page_base[page.2]? panicked with
  | some base =>
    let subs := compact_subs agg start stop base
    pure (leaves.set page.2 (leaf_with_subs t.canon base (base + (stop - start)) subs))
  | none =>
    if coord_range agg start stop ≠ [] then do
      let leaf ← ok_or witness_leaves[page.2]? panicked
      pure (leaves.set page.2 leaf)
    else pure leaves

def held_aggregate (t : BlockTree) (spans : List (Nat × Nat)) (agg : Coords) : Coords :=
  (spans.zipIdx.flatMap fun page =>
    if (t.page_base.getD page.2 none).isSome then coord_range agg page.1.1 page.1.2 else []).foldl
    (fun m c => m.insert c.1 c.2) ∅

def page_of (coord : Nat) (spans : List (Nat × Nat)) : Nat :=
  (spans.findIdx? fun s => s.1 ≤ coord ∧ coord < s.2).getD 0

/-- One coordinate of the paged commit: the undo entry, and the new compact canon. -/
def commit_held (t : BlockTree) (spans : List (Nat × Nat)) (acc : List (UInt32 × Int64) × List Int64)
    (c : UInt32 × Int64) : Validation (List (UInt32 × Int64) × List Int64) := do
  let pid := page_of c.1.toNat spans
  let base ← ok_or (t.page_base[pid]?.bind id) panicked
  let ci := base + (c.1.toNat - (spans.getD pid (0, 0)).1)
  let old ← ok_or acc.2[ci]? panicked
  pure (acc.1 ++ [(c.1, old)], acc.2.set ci (old + c.2))

def stage_paged (t : BlockTree) (block : Block) (p : Parent) :
    Validation (Validated × Coords × List Hash × List (UInt32 × Int64) × List Int64) := do
  let spans := p.model.spans
  require (block.witness_leaves.length = p.model.pages.length) "paged node needs a full page-leaf witness"
  let v ← validate_inner block none p.height p.ledger t.data_contributor p.jurors p.model t.params
  let bodies ← block.txs.mapM (body_coords block)
  let agg := page_aggregate block spans (bodies.map (·.2))
  let leaves ← spans.zipIdx.foldlM (t.paged_leaf agg block.witness_leaves) t.page_leaves
  let grown := (init_pages t.params v.activations).map fun ip => merkle.leaf_hash (int64_bytes ip)
  require (hex_encode (merkle.root_from_hashes (leaves ++ grown)).val = block.header.state_root)
    "state_root does not reproduce from txs"
  let held_agg := t.held_aggregate spans agg
  let (undo, canon) ← held_agg.toList.foldlM (t.commit_held spans) ([], t.canon)
  pure (v, held_agg, leaves ++ grown, undo, canon)

def connect_extend_paged (t : BlockTree) (block : Block) : Validation Bool × BlockTree :=
  let bh := block.hash
  let staged := do
    let p ← t.parent_entries t.head
    pure (p, ← t.stage_paged block p)
  match staged with
  | .error e => (.error e, t)
  | .ok (p, v, held_agg, leaves, undo, canon) =>
    (.ok true, prune_deep { t with
      canon
      page_leaves := leaves
      undo := t.undo.insert bh (undo, [])
      redo := t.redo.insert bh held_agg.toList
      blocks := t.blocks.insert bh block.header
      ledger := t.ledger.insert bh v.ledger
      model := t.model.insert bh v.model
      cum_work := t.cum_work.insert bh (saturating_add p.work (max block.header.work 1))
      head := bh })

/-! ## Fork choice -/

def add_block (t : BlockTree) (block : Block) : Validation Bool × BlockTree :=
  let bh := block.hash
  if t.blocks.contains bh then (.ok false, t)
  else if bh ∈ t.convicted ∨ block.header.prev_hash ∈ t.convicted then
    (.error "block is on a convicted (fraudulent) line", t)
  else if t.held.isSome then
    if block.header.prev_hash = t.head then t.connect_extend_paged block
    else (.error "orphan: paged node follows head only", t)
  else if block.header.prev_hash = t.head then t.connect_extend block
  else t.connect_side block

/-- Follows the line until genesis, a convicted block or an unknown one. -/
def is_convicted_line (t : BlockTree) (cur : String) : Bool :=
  let last := (walk t.parent (fun h => h = t.genesis_hash || decide (h ∈ t.convicted)) t.walk_fuel cur).2
  last ≠ t.genesis_hash ∧ last ∈ t.convicted

def is_tip (t : BlockTree) (h : String) : Bool :=
  t.blocks.values.all fun hdr => hdr.prev_hash ≠ h

/-- One round of the loop over the known blocks. The order of the rounds does not matter. -/
def better_head (t : BlockTree) (best : String × UInt64) (h : String) : String × UInt64 :=
  if !t.is_tip h ∨ t.is_convicted_line h then best
  else
    let w := t.cum_work[h]?.getD 0
    if w > best.2 ∨ w = best.2 ∧ h < best.1 then (h, w) else best

def best_head (t : BlockTree) : String := (t.blocks.keys.foldl t.better_head (t.genesis_hash, 0)).1

/-- Whether the head changed, and the tree after it. -/
def convict (t : BlockTree) (block_hash : String) : Bool × BlockTree :=
  let known := t.blocks.contains block_hash
  let t := { t with convicted := t.convicted.insert block_hash }
  if !known then (false, t)
  else if !t.is_convicted_line t.head then (false, t)
  else
    let target := t.best_head
    if target = t.head then (false, t)
    else match t.rewind_to target with
      | (.ok _, t) => (true, { t with head := target })
      | (.error _, t) => (false, t)

end BlockTree

end Sestrian
