import Sestrian.Code.Produce

/-!
# Catching up with a peer (`node.rs`)

`SyncBatch` with the state that it keeps for each peer, and the loop of requests and answers. A batch
may ask the peer for blocks several times: `install` does so for each block that has to wait, and
`handle_sync_batch` when it is done. The net loop sends the first of these requests and drops the
others, as one request is out to a peer at a time.
-/

namespace Sestrian

variable [Crypto] [Serde]

inductive CatchUp where
  | Done
  | Idle
  | Request (from_height walkback_step : UInt64) (reset_walkback : Bool)

def WALKBACK_MAX : UInt64 := 64
def WALKBACK_START : UInt64 := 4

def catchup_decision (head_height their_head served : UInt64) (learned orphaned : Bool)
    (batch_top walkback_step : UInt64) : CatchUp :=
  if their_head ≤ head_height then .Done
  else if served = 0 then .Idle
  else if orphaned && !learned then
    let step := if walkback_step = 0 then WALKBACK_START else walkback_step
    .Request (BlockTree.saturating_sub head_height step) (min (step * 2) WALKBACK_MAX) false
  else .Request (min (batch_top + 1) their_head) WALKBACK_START learned

namespace Node

/-- The request that `install` sends to the peer a block came from. -/
def install_ask (s : Node) (sb : StoredBlock) : Option UInt64 :=
  if s.tree.blocks.contains sb.hash then none
  else
    let s := s.preload sb.txids
    match sb.to_core_sparse s.payloads with
    | none => some (BlockTree.saturating_sub sb.header.height 1)
    | some block =>
      match s.tree.add_block block with
      | (.ok _, _) => none
      | (.error e, tree) =>
        let s := { s with tree }
        if "orphan".toList <:+: e.toList then some (BlockTree.saturating_sub s.head_height 8) else none

/-- What the blocks of a batch make the node ask for. -/
def batch_asks (env : Env) (peer : PeerId) : Node → List StoredBlock → List UInt64
  | _, [] => []
  | s, sb :: blocks => (s.install_ask sb).toList ++ batch_asks env peer (s.install env sb (some peer)).2 blocks

def unpark (s : Node) (h : String) : Node :=
  { s with pending := s.pending.erase h, pending_at := s.pending_at.erase h }

/-- What the parked blocks make the node ask this peer for. -/
def retry_asks (env : Env) (peer : PeerId) : Node → List String → List UInt64
  | _, [] => []
  | s, h :: ready =>
    let asks := match s.pending[h]? with
      | some (sb, source) => if source = peer then ((s.unpark h).install_ask sb).toList else []
      | none => []
    asks ++ retry_asks env peer (s.retry_one env h) ready

def ready_blocks (env : Env) (s : Node) : List String :=
  (env.order s.pending.keys).filter fun h => (s.pending[h]?.map fun p => s.is_ready p.1).getD false

/-- The requests to this peer while a batch is handled. -/
def sync_asks (env : Env) (s : Node) (peer : PeerId) (blocks : List StoredBlock) (payloads : List (String × Payload)) :
    List UInt64 :=
  let s := payloads.foldl keep_payload s
  let taken := blocks.foldl (fun s sb => (s.install env sb (some peer)).2) s
  s.batch_asks env peer blocks ++ taken.retry_asks env peer (taken.ready_blocks env)

end Node

/-- The node, what it remembers of each peer it is behind, and the request of the net loop that is out
to each peer. -/
structure Syncing where
  node : Node
  sync_cursor : Dict UInt64
  sync_walkback : Dict UInt64
  last_sync_req : Dict UInt64

namespace Syncing

/-- The gate of the net loop. A request that is out stays out until it is answered. -/
def send_sync (c : Syncing) (peer : PeerId) (from_height : UInt64) : Syncing :=
  if c.last_sync_req.contains peer then c
  else { c with last_sync_req := c.last_sync_req.insert peer from_height }

/-- The parent is nowhere: not in the tree, not parked, not in the batch. -/
def is_orphaned (s : Node) (blocks : List StoredBlock) (sb : StoredBlock) : Bool :=
  let par := sb.header.prev_hash
  sb.header.height > 0 && par ≠ s.tree.genesis_hash && !s.tree.blocks.contains par && !s.pending.contains par &&
    !decide (par ∈ blocks.map StoredBlock.hash)

def caught_up (c : Syncing) (peer : PeerId) : Syncing :=
  { c with sync_cursor := c.sync_cursor.erase peer, sync_walkback := c.sync_walkback.erase peer }

/-- What is decided once the blocks of a response are in, and the height to ask this peer for next. -/
def catch_up (c : Syncing) (peer : PeerId) (known_before : Nat) (from_height : UInt64) (blocks : List StoredBlock)
    (their_head : UInt64) : Syncing × Option UInt64 :=
  let learned := c.node.tree.blocks.size > known_before
  if !decide (their_head > c.node.head_height) then (c.caught_up peer, none)
  else
    let orphaned := blocks.any (is_orphaned c.node blocks)
    let top := ((blocks.map fun sb => sb.header.height).max?).getD from_height
    match catchup_decision c.node.head_height their_head (UInt64.ofNat blocks.length) learned orphaned top
        (c.sync_walkback[peer]?.getD 0) with
    | .Done => (c.caught_up peer, none)
    | .Idle => (c, none)
    | .Request next walkback_step reset_walkback =>
      let sync_walkback :=
        if reset_walkback then c.sync_walkback.erase peer else c.sync_walkback.insert peer walkback_step
      ({ c with sync_walkback, sync_cursor := c.sync_cursor.insert peer next }, some next)

/-- A sync response, with the requests that follow it. -/
def handle_sync_batch (env : Env) (c : Syncing) (peer : PeerId) (current : Bool) (from_height : UInt64)
    (blocks : List StoredBlock) (payloads : List (String × Payload)) (their_head : UInt64) : Syncing :=
  let known_before := c.node.tree.blocks.size
  let asks := c.node.sync_asks env peer blocks payloads
  let c := { c with node := c.node.handle_sync_batch env peer blocks payloads }
  let (c, next) := if !current then (c, none) else c.catch_up peer known_before from_height blocks their_head
  (asks ++ next.toList).foldl (fun c from_height => c.send_sync peer from_height) c

end Syncing

/-- The blocks of a peer above genesis, lowest first. -/
structure PeerChain (genesis : String) where
  blocks : List StoredBlock
  height : ∀ (i : Nat) (sb : StoredBlock), blocks[i]? = some sb → sb.header.height.toNat = i + 1
  linked : ∀ (i : Nat) (sb : StoredBlock), blocks[i]? = some sb →
    some sb.header.prev_hash = (genesis :: blocks.map StoredBlock.hash)[i]?
  distinct : (genesis :: blocks.map StoredBlock.hash).Nodup
  short : blocks.length + 1 < 2 ^ 64

/-- How a request is answered: how many blocks, and the bodies that come with them. -/
structure Answer where
  env : Env
  count : Nat
  payloads : List (String × Payload)

namespace PeerChain

variable {genesis : String}

/-- The consecutive blocks from a height on. Genesis itself is never served. -/
def serve (C : PeerChain genesis) (from_height : UInt64) (count : Nat) : List StoredBlock :=
  (C.blocks.drop (from_height.toNat - 1)).take count

def top (C : PeerChain genesis) : UInt64 := UInt64.ofNat C.blocks.length

/-- The peer answers the request that is out to it. -/
def round (C : PeerChain genesis) (peer : PeerId) (c : Syncing) (a : Answer) : Syncing :=
  match c.last_sync_req[peer]? with
  | none => c
  | some from_height =>
    let c := { c with last_sync_req := c.last_sync_req.erase peer }
    c.handle_sync_batch a.env peer true from_height (C.serve from_height a.count) a.payloads C.top

/-- The loop after `n` answers. -/
def loop (C : PeerChain genesis) (peer : PeerId) (c : Syncing) (answers : Nat → Answer) : Nat → Syncing
  | 0 => c
  | n + 1 => C.round peer (C.loop peer c answers n) (answers n)

end PeerChain

end Sestrian
