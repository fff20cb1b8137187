import Sestrian.Code.Store
import Sestrian.Code.BlockTree

/-!
# The node (`node.rs`): its mempools, its bodies and the messages it handles

What is sent to peers, to the trainer or to the log is left out, with the counters that only
these read. A hash map is a `Dict`, and where the order of its entries shows, the order is part
of the step's `Env`, as the clock is.
-/

namespace Sestrian

open Walk

variable [Crypto] [Serde]

def INCLUDE_K : Nat := 8
def DELTA_STALE_SLACK : UInt64 := 2
def DELTA_FUTURE_WINDOW : UInt64 := 4
def MAX_DELTA_POOL : Nat := 512
def MAX_ACCOUNT_POOL : Nat := 4096
def MAX_PENDING : Nat := 256
def MAX_SEEN : Nat := 100000
def WANT_DELTA_TTL : Nat := 600
def PENDING_MAX_AGE : Nat := 1800
def AGG_CHUNK : Nat := 2 ^ 20

abbrev PeerId := String

/-- What a step sees of its surroundings: the time in seconds, and the order in which a hash
map yields these keys. -/
structure Env where
  now : Nat
  order : List String → List String

/-- The options read here. The last two are environment variables with these defaults. -/
structure NodeConfig where
  da_retain_blocks : UInt64 := 0
  byzantine_aggregation : Bool := false
  dtx_inline_max : Nat := 12 * 1024 * 1024
  body_window : UInt64 := 128

structure Key where
  pub_hex : String
  sign : List UInt8 → List UInt8

structure Node where
  tree : BlockTree
  store : Store
  key : Key
  blocks_full : Dict StoredBlock
  da_pruned_to : UInt64
  payloads : Dict Payload
  delta_pool : Dict BackpropTx
  delta_scores : Dict UInt64
  delta_sketches : Dict (List Int32)
  account_pool : Dict AccountTx
  pending : Dict (StoredBlock × PeerId)
  pending_at : Dict Nat
  seen : StrSet
  seen_order : List String
  want_deltas : Dict (WireDeltaTx × Nat)
  cfg : NodeConfig

def delta_in_window (base_height head_height : UInt64) : Bool :=
  base_height + DELTA_STALE_SLACK ≥ head_height && base_height ≤ head_height + DELTA_FUTURE_WINDOW

namespace Node

def head_height (s : Node) : UInt64 := (s.tree.blocks[s.tree.head]?.map (·.height)).getD 0

def head_ledger (s : Node) : TokenLedger := (s.tree.ledger[s.tree.head]?).getD .new

/-- A ring of the last `MAX_SEEN` ids. -/
def mark_seen (s : Node) (txid : String) : Node :=
  if txid ∈ s.seen then s
  else
    let order := s.seen_order ++ [txid]
    let excess := order.length - MAX_SEEN
    { s with
      seen := (order.take excess).foldl (fun m old => m.erase old) (s.seen.insert txid)
      seen_order := order.drop excess }

/-! ## Eviction -/

def drop_pool_delta (s : Node) (txid : String) : Node :=
  { s with
    delta_pool := s.delta_pool.erase txid
    delta_scores := s.delta_scores.erase txid
    delta_sketches := s.delta_sketches.erase txid
    payloads := s.payloads.erase txid
    store := s.store.remove_payload txid }

def drop_all (s : Node) (ids : List String) : Node := ids.foldl drop_pool_delta s

def stale_deltas (s : Node) : List String :=
  (s.delta_pool.toList.filter fun e => !delta_in_window e.2.base_height s.head_height).map (·.1)

/-- The ids past the cap, the stalest first. -/
def excess_deltas (env : Env) (s : Node) : List String :=
  let by_h := (env.order s.delta_pool.keys).filterMap fun id => s.delta_pool[id]?.map fun t => (id, t.base_height)
  ((by_h.insertionSort fun a b => a.2 ≤ b.2).take (s.delta_pool.size - MAX_DELTA_POOL)).map (·.1)

def evict_delta_pool (env : Env) (s : Node) : Node :=
  let s := s.drop_all s.stale_deltas
  if s.delta_pool.size > MAX_DELTA_POOL then s.drop_all (s.excess_deltas env) else s

def evict_account_pool (env : Env) (s : Node) : Node :=
  let stale := s.account_pool.toList.filter fun e => e.2.nonce < s.head_ledger.nonce_of (address e.2.sender_pub)
  let pool := stale.foldl (fun m e => m.erase e.1) s.account_pool
  let by_n := (env.order pool.keys).filterMap fun id => pool[id]?.map fun t => (id, t.nonce)
  let most_future := (by_n.insertionSort fun a b => b.2 ≤ a.2).take (pool.size - MAX_ACCOUNT_POOL)
  { s with account_pool := most_future.foldl (fun m e => m.erase e.1) pool }

/-- When the queue is full the highest parked block makes room. -/
def queue_pending (env : Env) (s : Node) (bh : String) (sb : StoredBlock) (peer : PeerId) : Node :=
  let highest := (env.order s.pending.keys).foldl (fun best h =>
    match s.pending[h]?, best with
    | some p, some (b, top) => if top ≤ p.1.header.height then some (h, p.1.header.height) else some (b, top)
    | some p, none => some (h, p.1.header.height)
    | none, best => best) none
  let s := match highest with
    | some (drop, _) =>
      if s.pending.size ≥ MAX_PENDING ∧ !s.pending.contains bh then
        { s with pending := s.pending.erase drop, pending_at := s.pending_at.erase drop }
      else s
    | none => s
  { s with
    pending_at := if s.pending_at.contains bh then s.pending_at else s.pending_at.insert bh env.now
    pending := s.pending.insert bh (sb, peer) }

/-! ## Admission -/

/-- The gate against the head's model: canonical active claims, the right dimension, nothing
outside the claims, and the quota met. -/
def fits_model (s : Node) (tx : BackpropTx) (payload : Payload) (coords : List (UInt32 × Int64)) : Bool :=
  match s.tree.model[s.tree.head]? with
  | none => false
  | some model =>
    let pages := tx.canonical_pages
    let moved := coords.filter fun c => c.2 ≠ 0
    !pages.isEmpty && tx.pages == pages && pages.all (fun p => model.is_active p.toNat) &&
    payload.n == model.dim && moved.all (fun c => in_claims model pages c.1.toNat) &&
    (model.required_nnz pages).toNat ≤ moved.length && moved.length ≤ s.tree.params.delta_max_nnz.toNat

def admits (s : Node) (tx : BackpropTx) (payload : Payload) : Bool :=
  !decide (tx.txid ∈ s.seen) && tx.verify && match payload.coords with
    | none => false
    | some coords =>
      delta_hash_sparse payload.n coords == tx.delta_hash && delta_in_window tx.base_height s.head_height &&
      s.fits_model tx payload coords

/-- The delta enters the pool, and its body the disk and the memory. -/
def pool_delta (s : Node) (tx : BackpropTx) (payload : Payload) : Node :=
  let txid := tx.txid
  let s := { s with tree := { s.tree with hash_verified := s.tree.hash_verified.insert txid } }
  let s := s.mark_seen txid
  let store := s.store.put_payload txid payload
  { s with
    store := if payload.wire_bytes > s.cfg.dtx_inline_max then store.disperse_payload txid payload else store
    payloads := s.payloads.insert txid payload
    delta_pool := s.delta_pool.insert txid tx }

def accept_delta (env : Env) (s : Node) (tx : BackpropTx) (payload : Payload) : Bool × Node :=
  if s.admits tx payload then (true, (s.pool_delta tx payload).evict_delta_pool env) else (false, s)

def accept_account_tx (env : Env) (s : Node) (tx : AccountTx) : Option String × Node :=
  if tx.txid ∈ s.seen ∨ !tx.verify ∨ tx.nonce < s.head_ledger.nonce_of (address tx.sender_pub) then (none, s)
  else
    let s := s.mark_seen tx.txid
    (some tx.txid, ({ s with account_pool := s.account_pool.insert tx.txid tx }).evict_account_pool env)

/-! ## After the head moved -/

/-- The shards this node keeps of an old body: `K + 2` of them, from an offset of its own. -/
def my_shard_zone (s : Node) : List UInt32 :=
  let off := from_be_bytes ((sha256 (as_bytes s.key.pub_hex)).val.take 4) % Store.DA_N
  (List.range (Store.DA_K + 2)).map fun j => UInt32.ofNat ((off + j) % Store.DA_N)

def delete_bodies (s : Node) (ids : List String) : Node :=
  ids.foldl (fun s id => { s with store := s.store.delete_body_and_shards id, payloads := s.payloads.erase id }) s

/-- Retention: the bodies deeper than the window go. An archive node has no window. -/
def prune_retained (s : Node) (head_h : UInt64) : Node :=
  if s.cfg.da_retain_blocks > 0 then
    let floor := BlockTree.saturating_sub head_h s.cfg.da_retain_blocks
    if floor > s.da_pruned_to then
      let doomed := s.blocks_full.values.filter fun sb =>
        sb.header.height > s.da_pruned_to ∧ sb.header.height ≤ floor
      { s.delete_bodies (doomed.flatMap (·.txids)) with da_pruned_to := floor }
    else s
  else s

/-- The block of the head's line at this height. -/
def block_at (s : Node) (frontier : UInt64) : Option StoredBlock :=
  let height (h : String) : Option UInt64 := s.tree.blocks[h]?.map (·.height)
  let cur := (walk s.tree.parent (fun h => (height h).any (· ≤ frontier)) s.tree.walk_fuel s.tree.head).2
  if height cur = some frontier then s.blocks_full[cur]? else none

def prune_to_zone (s : Node) (ids : List String) : Node :=
  { s with store := ids.foldl (fun st id => st.prune_body_to_shards id s.my_shard_zone) s.store }

def prune_old_bodies (s : Node) (head_h : UInt64) : Node :=
  let s := s.prune_retained head_h
  if head_h ≤ s.cfg.body_window + 1 then s
  else match s.block_at (head_h - (s.cfg.body_window + 1)) with
    | some sb => s.prune_to_zone sb.txids
    | none => s

/-- A parked block that is too old goes, and its bodies leave the memory. -/
def drop_pending (env : Env) (s : Node) (k : String) : Node :=
  if (s.pending_at[k]?.map fun t => decide (env.now - t > PENDING_MAX_AGE)).getD true then
    let ids := (s.pending[k]?.map fun p => p.1.txids).getD []
    let unpooled := ids.filter fun id => !s.delta_pool.contains id && s.store.has_payload id
    { s with
      pending := s.pending.erase k
      pending_at := s.pending_at.erase k
      payloads := unpooled.foldl (fun m id => m.erase id) s.payloads }
  else s

def on_head_advance (env : Env) (s : Node) : Node :=
  let h := s.head_height
  let s := (s.evict_delta_pool env).evict_account_pool env
  (s.pending.keys.foldl (drop_pending env) s).prune_old_bodies h

/-! ## Installing a block -/

/-- Bodies come from memory, else from the disk. -/
def preload (s : Node) (ids : List String) : Node :=
  ids.foldl (fun s id =>
    if s.payloads.contains id then s
    else match s.store.get_payload id with
      | some p => { s with payloads := s.payloads.insert id p }
      | none => s) s

/-- Bodies that can be rebuilt from the shards at hand. -/
def recover (s : Node) (ids : List String) : Node :=
  ids.foldl (fun s id =>
    if s.payloads.contains id || s.store.has_payload id then s
    else match s.store.reconstruct_payload id with
      | some p => { s with payloads := s.payloads.insert id p }
      | none => s) s

def park (env : Env) (s : Node) (sb : StoredBlock) : Option PeerId → Node
  | some peer => s.queue_pending env sb.hash sb peer
  | none => s

/-- An included delta leaves the pool, and the memory once its body is on disk. -/
def settle_delta (s : Node) (id : String) : Node :=
  let s := { s with
    delta_pool := s.delta_pool.erase id
    delta_scores := s.delta_scores.erase id
    delta_sketches := s.delta_sketches.erase id }
  match s.payloads[id]? with
  | some p => { s with store := s.store.put_payload id p, payloads := s.payloads.erase id }
  | none => s

def settle_account (s : Node) (t : AccountTx) : Node :=
  ({ s with account_pool := s.account_pool.erase t.txid }).mark_seen t.txid

/-- What follows when the tree took the block. -/
def installed (env : Env) (s : Node) (sb : StoredBlock) (old_head : String) : Node :=
  let s := sb.txids.foldl settle_delta s
  let s := sb.account_txs.foldl settle_account s
  let s := { s with blocks_full := s.blocks_full.insert sb.hash sb }
  if s.tree.head ≠ old_head then s.on_head_advance env else s

/-- The node after a block came in. What it asks its peer for meanwhile is `install_ask`. -/
def install (env : Env) (s : Node) (sb : StoredBlock) (source : Option PeerId) : Bool × Node :=
  if s.tree.blocks.contains sb.hash then (false, s)
  else
    let s := s.preload sb.txids
    match sb.to_core_sparse s.payloads with
    | none => (false, (s.recover sb.txids).park env sb source)
    | some block =>
      match s.tree.add_block block with
      | (.ok _, tree) => (true, ({ s with tree }).installed env sb s.tree.head)
      | (.error e, tree) =>
        let s := { s with tree }
        (false, if "orphan".toList <:+: e.toList then s.park env sb source else s)

def is_ready (s : Node) (sb : StoredBlock) : Bool :=
  (sb.txs.all fun t => (t.to_core.map fun tc =>
    s.payloads.contains tc.txid || s.store.has_payload tc.txid).getD false) &&
  s.tree.blocks.contains sb.header.prev_hash

def retry_one (env : Env) (s : Node) (h : String) : Node :=
  match s.pending[h]? with
  | some (sb, peer) =>
    (({ s with pending := s.pending.erase h, pending_at := s.pending_at.erase h }).install env sb (some peer)).2
  | none => s

def retry_pending (env : Env) (s : Node) : Node :=
  let ready := (env.order s.pending.keys).filter fun h => (s.pending[h]?.map fun p => s.is_ready p.1).getD false
  ready.foldl (retry_one env) s

end Node

end Sestrian
