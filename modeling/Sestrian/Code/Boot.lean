import Sestrian.Code.BlockTree
import Sestrian.Code.Decode
import Sestrian.Code.Store

/-!
# A restart (`store.rs`)

The tree is rebuilt from the genesis weights and the stored blocks: by a full replay, or from the
newest snapshot on.
-/

open Panic

namespace Sestrian

variable [Crypto] [Serde]

/-- The tree, the stored blocks that are served, and the bodies that were read. -/
structure Rebuilt where
  tree : BlockTree
  index : Dict StoredBlock
  cache : Dict Payload

/-- What `write_snapshot` keeps of a block. -/
structure Snapshot where
  hash : String
  height : UInt64
  state : List Int64
  ledger : TokenLedger
  model : ModelState

namespace BlockTree

def adopt_checkpoint (t : BlockTree) (hash : String) (state : List Int64) (ledger : TokenLedger) (model : ModelState) :
    BlockTree :=
  { t with
    page_leaves := leaves_for state model
    canon := state
    ledger := t.ledger.insert hash ledger
    model := t.model.insert hash model
    head := hash }

/-- The block to checkpoint: the parent of the head, or else the head. -/
def snapshot_basis_hash (t : BlockTree) : String :=
  match t.blocks[t.head]? with
  | some hdr => if hdr.height ≥ 1 ∧ hdr.prev_hash ≠ t.genesis_hash ∧ t.undo.contains t.head then hdr.prev_hash else t.head
  | none => t.head

/-- The snapshot that the node writes, and the tree after it moved to its block and back. -/
def take_snapshot (t : BlockTree) : Option Snapshot × BlockTree :=
  let sh := t.snapshot_basis_hash
  let height := ((t.blocks[sh]?.map (·.height)).getD ((t.blocks[t.head]?.map (·.height)).getD 0))
  match t.ledger[sh]?, t.model[sh]? with
  | some ledger, some model =>
    match t.with_state_at sh id with
    | (.ok state, t) => (some { hash := sh, height, state, ledger, model }, t)
    | (.error _, t) =>
      match t.ledger[t.head]?, t.model[t.head]? with
      | some ledger, some model =>
        (some { hash := t.head, height := (t.blocks[t.head]?.map (·.height)).getD 0, state := t.canon, ledger, model }, t)
      | _, _ => (none, t)
  | _, _ => (none, t)

end BlockTree

namespace Store

/-- The bodies of a block that are on disk. -/
def gather (st : Store) (sb : StoredBlock) : Dict Payload :=
  sb.deltas.foldl (fun m t =>
    match st.get_payload t.txid with
    | some p => m.insert t.txid p
    | none => m) ∅

def keep_all (cache payloads : Dict Payload) : Dict Payload :=
  payloads.toList.foldl (fun m e => m.insert e.1 e.2) cache

/-- Stops at the first block that misses a body or is not valid. -/
def full_replay_from (st : Store) (r : Rebuilt) : List StoredBlock → MayPanic Rebuilt
  | [] => .ok r
  | sb :: blocks =>
    let payloads := st.gather sb
    match sb.to_core payloads with
    | .error .panic => .error .panic
    | .error (.reject _) => .ok r
    | .ok block =>
      match r.tree.add_block block with
      | (.error _, tree) => .ok { r with tree }
      | (.ok _, tree) =>
        full_replay_from st { tree, index := r.index.insert sb.hash sb, cache := keep_all r.cache payloads } blocks

def full_replay (st : Store) (genesis : List Int64) (blocks : List StoredBlock) (dc : Option String)
    (prune_depth : UInt64) (params : GenesisParams) : MayPanic Rebuilt :=
  st.full_replay_from
    { tree := { BlockTree.new genesis dc params with prune_depth := some prune_depth }, index := ∅, cache := ∅ } blocks

/-- The header of a block whose parent is indexed. -/
def index_header (t : BlockTree) (sb : StoredBlock) : BlockTree :=
  match t.cum_work[sb.header.prev_hash]? with
  | some pw => { t with
      blocks := t.blocks.insert sb.hash sb.header
      cum_work := t.cum_work.insert sb.hash (pw + max sb.header.work 1) }
  | none => t

/-- A tree that takes stored blocks, the bodies read so far, and if a block was taken. -/
structure Walked where
  tree : BlockTree
  cache : Dict Payload
  changed : Bool

/-- One block of the forward walk or of a reconnect pass. -/
def connect_stored (st : Store) (w : Walked) (sb : StoredBlock) : MayPanic Walked :=
  let payloads := st.gather sb
  match sb.to_core payloads with
  | .error .panic => .error .panic
  | .error (.reject _) => .ok w
  | .ok block =>
    match w.tree.add_block block with
    | (.error _, tree) => .ok { w with tree }
    | (.ok _, tree) => .ok { tree, cache := keep_all w.cache payloads, changed := true }

/-- Along the branch of the head only. -/
def walk_forward (st : Store) (snap_h : UInt64) (w : Walked) (sorted : List StoredBlock) : MayPanic Walked :=
  sorted.foldlM (fun w sb =>
    if sb.header.height ≤ snap_h ∨ sb.header.prev_hash ≠ w.tree.head then .ok w else st.connect_stored w sb) w

def reconnect_pass (st : Store) (w : Walked) (sorted : List StoredBlock) : MayPanic Walked :=
  sorted.foldlM (fun w sb =>
    if w.tree.blocks.contains sb.hash ∨ !w.tree.blocks.contains sb.header.prev_hash then .ok w
    else st.connect_stored w sb) w

/-- Every pass but the last one connects a stored block, so `sorted.length + 1` passes are enough. -/
def reconnect (st : Store) (sorted : List StoredBlock) : Nat → Walked → MayPanic Walked
  | 0, w => .ok w
  | passes + 1, w => do
    let w ← st.reconnect_pass { w with changed := false } sorted
    if w.changed then reconnect st sorted passes w else pure w

def by_height (blocks : List StoredBlock) : List StoredBlock :=
  blocks.mergeSort fun a b => decide (a.header.height ≤ b.header.height)

def fast_replay (st : Store) (genesis : List Int64) (blocks : List StoredBlock) (dc : Option String)
    (prune_depth : UInt64) (snap : Snapshot) (params : GenesisParams) : MayPanic (Option Rebuilt) := do
  let tree := { BlockTree.new genesis dc params with prune_depth := some prune_depth }
  let sorted := by_height blocks
  let tree := (sorted.takeWhile fun sb => decide (sb.header.height ≤ snap.height)).foldl index_header tree
  if !tree.blocks.contains snap.hash then pure none
  else
    let tree := tree.adopt_checkpoint snap.hash snap.state snap.ledger snap.model
    let w ← st.walk_forward snap.height { tree, cache := ∅, changed := false } sorted
    let w ← st.reconnect sorted (sorted.length + 1) w
    let top : UInt64 := (w.tree.blocks[w.tree.head]?.map (·.height)).getD 0
    let index := (blocks.foldl (fun m b => m.insert b.hash b) (∅ : Dict StoredBlock)).filter fun _ sb =>
      decide (sb.header.height ≤ top)
    pure (some { tree := w.tree, index, cache := w.cache })

def replay (st : Store) (genesis : List Int64) (blocks : List StoredBlock) (snapshot : Option Snapshot)
    (dc : Option String) (prune_depth : UInt64) (params : GenesisParams) : MayPanic Rebuilt := do
  match snapshot with
  | none => st.full_replay genesis blocks dc prune_depth params
  | some snap =>
    match ← st.fast_replay genesis blocks dc prune_depth snap params with
    | some r => pure r
    | none => st.full_replay genesis blocks dc prune_depth params

end Store

end Sestrian
