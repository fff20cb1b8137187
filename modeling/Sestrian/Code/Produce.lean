import Sestrian.Code.Node

/-!
# The producer and the message loop (`node.rs`)
-/

namespace Sestrian

variable [Crypto] [Serde]

/-! ## Selection -/

/-- The stated values of a payload that are not zero, a coordinate counted each time it is written. -/
def Payload.raw_nnz (p : Payload) : Option Nat := do
  let val ← unb64 p.val
  some ((words val).filter (· ≠ 0)).length

/-- At most `room` deltas, one for each miner. -/
def pick (miners : List String) : Nat → List BackpropTx → List BackpropTx
  | 0, _ => []
  | _, [] => []
  | room + 1, t :: ts =>
    if t.miner ∈ miners then pick miners (room + 1) ts else t :: pick (t.miner :: miners) room ts

/-- Chunk by chunk, the trimmed mean of the claimants over `[c, hi)`. -/
def chunked_aggregate_range (payloads : List Payload) (hi step : Nat) : Nat → Nat → List Int64
  | 0, _ => []
  | fuel + 1, c =>
    if c < hi then
      let e := min (c + step) hi
      trimmed_mean (payloads.map (·.dense_range c e)) ++ chunked_aggregate_range payloads hi step fuel e
    else []

/-- The body, with no coordinates where the payload does not decode. -/
def Payload.body_or_empty (p : Payload) : SparseBody :=
  p.body.getD { n := p.n, coords := [], sorted := .nil, nonzero := by simp, in_range := by simp }

def resize_sketch (sk : List Int32) : List Int32 := (sk ++ List.replicate SKETCH_DIM 0).take SKETCH_DIM

namespace Node

def quota_ok (s : Node) (model : ModelState) (t : BackpropTx) : Bool :=
  let pages := t.canonical_pages
  !pages.isEmpty && t.pages == pages && pages.all (fun p => model.is_active p.toNat) &&
  match s.payloads[t.txid]?.bind Payload.raw_nnz with
  | some nnz => (model.required_nnz pages).toNat ≤ nnz && nnz ≤ s.tree.params.delta_max_nnz.toNat
  | none => false

def lane_ok (s : Node) (model : ModelState) (t : BackpropTx) : Bool :=
  let gp := s.tree.params
  if gp.v5_height = 0 ∨ s.head_height + 1 < gp.v5_height then true
  else
    let allowed := lanes.claimable_pages ((s.head_height + 1) / gp.lane_epoch_len) t.miner model gp.lane_width
    t.canonical_pages.all (allowed.contains ·)

def is_candidate (s : Node) (model : ModelState) (t : BackpropTx) : Bool :=
  t.base_height == s.head_height && t.canonical_refs.any ((active_hashes s.head_ledger).contains ·) &&
  s.quota_ok model t && s.lane_ok model t

def cands (s : Node) (model : ModelState) : List BackpropTx :=
  ((s.delta_pool.toList.map (·.2)).filter (s.is_candidate model)).insertionSort fun a b => a.txid ≤ b.txid

def chosen (s : Node) (model : ModelState) : List BackpropTx := pick [] INCLUDE_K (s.cands model)

/-! ## The candidate block -/

def payload_of (s : Node) (t : BackpropTx) : Payload := (s.payloads[t.txid]?).getD default

def aggregate_claimed (s : Node) (chosen : List BackpropTx) (agg : Coords) (page : Page × Nat) : Coords :=
  let claimants := (chosen.filter fun t => UInt32.ofNat page.2 ∈ t.canonical_pages).map s.payload_of
  if claimants.isEmpty then agg
  else
    let m := chunked_aggregate_range claimants page.1.stop AGG_CHUNK (page.1.stop - page.1.start) page.1.start
    m.zipIdx.foldl (fun agg v => if v.1 ≠ 0 then agg.insert (UInt32.ofNat (page.1.start + v.2)) v.1 else agg) agg

def aggregate (s : Node) (model : ModelState) (chosen : List BackpropTx) : Coords :=
  model.pages.zipIdx.foldl (s.aggregate_claimed chosen) ∅

/-- The attack of the local test net: one aggregated coordinate is off. -/
def corrupt (agg : Coords) : Coords :=
  match agg.toList with
  | [] => agg
  | (coord, v) :: _ => agg.insert coord (v + 1000000)

def blk_scores (s : Node) (chosen : List BackpropTx) : Dict UInt64 :=
  chosen.foldl (fun m t => m.insert t.txid (min ((s.delta_scores[t.txid]?).getD 0) SCORE_CAP)) ∅

def blk_sketches (s : Node) (chosen : List BackpropTx) : Dict (List Int32) :=
  chosen.foldl (fun m t => m.insert t.txid
    (resize_sketch ((s.delta_sketches[t.txid]?).getD (List.replicate SKETCH_DIM 0)))) ∅

/-- The ledger of the candidate before its bonds: expiries, sketches, then the reward. -/
def scratch (s : Node) (chosen : List BackpropTx) : TokenLedger :=
  let height := s.head_height + 1
  let led := (s.head_ledger.resolve_expired_challenges height).resolve_expired_bonds height
  let acc := chosen.foldl
    (accrue_tx (effective_scores chosen (s.blk_scores chosen)) (weighted_hashes led) (hash_to_key led)
      (s.blk_sketches chosen))
    { registry := led.registry, miner_weights := ∅, data_credits := ∅ }
  ({ led with registry := acc.registry }).apply_reward height (chosen.map BackpropTx.miner) s.key.pub_hex
    s.tree.data_contributor.toList acc.data_credits acc.miner_weights

/-- `None` when a delta's miner cannot pay its bond. -/
def lock_chosen (height : UInt64) (led : TokenLedger) (t : BackpropTx) : Option TokenLedger :=
  match led.lock_bond t.txid (address t.miner) t.bond height with
  | (true, led) => some led
  | (false, _) => none

structure Lanes where
  led : TokenLedger
  transfers : List Json
  data_txs : List Json

/-- An account transaction that does not apply is left out. -/
def try_account_tx (height : UInt64) (jurors : StrSet) (l : Lanes) (t : AccountTx) : Lanes :=
  match t with
  | .Transfer x => match l.led.apply_transfer x with
    | (true, led) => { l with led, transfers := l.transfers ++ [account_tx_to_json t] }
    | (false, led) => { l with led }
  | _ => match l.led.apply_data_tx t height jurors with
    | (true, led) => { l with led, data_txs := l.data_txs ++ [account_tx_to_json t] }
    | (false, led) => { l with led }

/-- The block on these deltas, once their bonds are locked. -/
def candidate (s : Node) (attempt : UInt64) (model : ModelState) (chosen : List BackpropTx) (led : TokenLedger) :
    StoredBlock × Block :=
  let head := s.tree.head
  let height := s.head_height + 1
  let agg := s.aggregate model chosen
  let scores := s.blk_scores chosen
  let sketches := s.blk_sketches chosen
  let lanes := (canonical_account_txs s.account_pool.values).foldl
    (try_account_tx height (s.tree.recent_proposers head)) { led, transfers := [], data_txs := [] }
  let core_transfers := lanes.transfers.filterMap StoredBlock.as_transfer
  let core_data := lanes.data_txs.filterMap account_tx_from_json
  let score (t : BackpropTx) : UInt64 := (scores[t.txid]?).getD 0
  let (post_model, activations) := fold model s.tree.params height (UInt64.ofNat chosen.length)
    (UInt64.ofNat (chosen.filter fun t => score t = 0).length) head (chosen.map score).sum s.key.pub_hex
  let agg := if s.cfg.byzantine_aggregation then corrupt agg else agg
  let (state_root, leaves) := s.tree.state_root_with model.spans agg (init_pages s.tree.params activations)
  let vrf_proof := s.key.sign (lottery.seed head height attempt)
  let header : Header := {
    height, prev_hash := head, state_root
    txset_root := txset_root (chosen.map (·.txid)), n_txs := UInt64.ofNat chosen.length
    work := lottery.attempt_work vrf_proof attempt, proposer := s.key.pub_hex
    transfer_root := transfer_root core_transfers, ledger_root := lanes.led.root, data_root := data_root core_data
    vrf_proof := hex_encode vrf_proof, score_root := scores_root scores, sketch_root := sketch_root sketches
    model_root := post_model.model_root, vrf_attempt := attempt
    version := expected_version_at height s.tree.params }
  let stored : StoredBlock := {
    header, txs := chosen.map .from_core, transfers := lanes.transfers, data_txs := lanes.data_txs
    scores, sketches, page_leaves := leaves.map fun l => hex_encode l.val }
  let sparse := chosen.foldl (fun m t => m.insert t.da_pointer (s.payload_of t).body_or_empty) ∅
  (stored, {
    header, txs := chosen, bodies := ∅, sparse, transfers := core_transfers, data_txs := core_data
    scores, sketches, witness_leaves := leaves })

def build_candidate (s : Node) (attempt : UInt64) : Option (StoredBlock × Block) := do
  let model ← s.tree.model[s.tree.head]?
  let chosen := s.chosen model
  if chosen.isEmpty then none
  else
    let led ← chosen.foldlM (lock_chosen (s.head_height + 1)) (s.scratch chosen)
    some (s.candidate attempt model chosen led)

/-- The node proposes: it takes its own candidate first. -/
def propose (env : Env) (s : Node) (attempt : UInt64) : Node :=
  match s.build_candidate attempt with
  | none => s
  | some (stored, block) =>
    match s.tree.add_block block with
    | (.error _, tree) => { s with tree }
    | (.ok _, tree) =>
      let s := { s with
        tree
        delta_pool := stored.txids.foldl (fun m id => m.erase id) s.delta_pool
        delta_scores := stored.txids.foldl (fun m id => m.erase id) s.delta_scores
        delta_sketches := stored.txids.foldl (fun m id => m.erase id) s.delta_sketches
        account_pool := stored.account_txs.foldl (fun m t => m.erase (AccountTx.txid t)) s.account_pool
        blocks_full := s.blocks_full.insert stored.hash stored }
      s.on_head_advance env

/-! ## Messages -/

/-- The shards of one body, as a peer serves them: base64 under their indices. -/
structure BodyShards where
  txid : String
  k : Nat
  n : Nat
  orig_len : Nat
  shards : List (UInt32 × String)

/-- What reaches the chain: gossip, sync responses, the trainer's scores and the proposal round. -/
inductive Msg where
  | Dtx (tx : WireDeltaTx) (payload : Payload)
  | Atx (v : Json)
  | Blk (block : StoredBlock) (source : Option PeerId)
  | SyncBatch (peer : PeerId) (blocks : List StoredBlock) (payloads : List (String × Payload))
  | ShardBatch (current : Bool) (bodies : List BodyShards)
  | Scores (height : UInt64) (scores : List (String × UInt64)) (sketches : List (String × List Int32))
  | Propose (attempt : UInt64)

/-- An announced delta without its body: rebuild it, or wait for shards. -/
def announce (env : Env) (s : Node) (tx : WireDeltaTx) (t : BackpropTx) : Node :=
  match (s.payloads[t.txid]?).or (s.store.reconstruct_payload t.txid) with
  | some p => (({ s with payloads := s.payloads.insert t.txid p }).accept_delta env t p).2
  | none =>
    if s.want_deltas.size < 64 ∧ !s.want_deltas.contains t.txid then
      { s with want_deltas := s.want_deltas.insert t.txid (tx, env.now + WANT_DELTA_TTL) }
    else s

def handle_dtx (env : Env) (s : Node) (tx : WireDeltaTx) (payload : Payload) : Node :=
  match tx.to_core with
  | none => s
  | some t =>
    let s := if payload.idx = "" ∧ payload.val = "" then s.announce env tx t else (s.accept_delta env t payload).2
    s.retry_pending env

/-- Bodies of a sync response land on disk unchecked, unless one is there already. -/
def keep_payload (s : Node) (e : String × Payload) : Node :=
  if s.payloads.contains e.1 || s.store.has_payload e.1 then s
  else { s with store := s.store.put_payload e.1 e.2 }

/-- Asking for missing bodies first forgets the announced deltas that waited too long. -/
def expire_wanted (env : Env) (s : Node) : Node :=
  { s with want_deltas := s.want_deltas.filter fun _ w => env.now < w.2 }

def handle_sync_batch (env : Env) (s : Node) (peer : PeerId) (blocks : List StoredBlock)
    (payloads : List (String × Payload)) : Node :=
  let s := payloads.foldl keep_payload s
  let known_before := s.tree.blocks.size
  let s := blocks.foldl (fun s sb => (s.install env sb (some peer)).2) s
  let s := s.retry_pending env
  if s.tree.blocks.size > known_before then s else s.expire_wanted env

def put_shards (st : Store) (b : BodyShards) : Store :=
  b.shards.foldl (fun st sh => match unb64 sh.2 with
    | some bytes => st.put_shard b.txid sh.1 bytes b.k b.n b.orig_len
    | none => st) st

/-- A body whose shards suffice goes to its file. -/
def rebuild (s : Node) (txid : String) : Node :=
  if txid ≠ Store.GENESIS_DA_KEY ∧ !s.payloads.contains txid ∧ !s.store.has_payload txid then
    match s.store.reconstruct_payload txid with
    | some p => { s with store := s.store.put_payload txid p }
    | none => s
  else s

/-- A delta that waited for its body is offered again. -/
def fulfil (env : Env) (s : Node) (txid : String) : Node :=
  match s.want_deltas[txid]? with
  | none => s
  | some (wtx, _) =>
    match (s.payloads[txid]?).or (s.store.get_payload txid) with
    | none => { s with want_deltas := s.want_deltas.insert txid (wtx, env.now + WANT_DELTA_TTL) }
    | some p =>
      let s := { s with want_deltas := s.want_deltas.erase txid }
      match wtx.to_core with
      | some t => (s.accept_delta env t p).2
      | none => s

def take_shards (env : Env) (s : Node) (b : BodyShards) : Node :=
  (({ s with store := put_shards s.store b }).rebuild b.txid).fulfil env b.txid

def handle_shard_batch (env : Env) (s : Node) (current : Bool) (bodies : List BodyShards) : Node :=
  let got := bodies.any fun b => b.shards.any fun sh => (unb64 sh.2).isSome
  let s := bodies.foldl (take_shards env) s
  if got then
    let s := s.retry_pending env
    if current then s.expire_wanted env else s
  else s

def handle_scores (s : Node) (height : UInt64) (scores : List (String × UInt64))
    (sketches : List (String × List Int32)) : Node :=
  if height = s.head_height then
    { s with
      delta_scores := (scores.filter fun e => s.delta_pool.contains e.1).foldl
        (fun m e => m.insert e.1 (min e.2 SCORE_CAP)) s.delta_scores
      delta_sketches := (sketches.filter fun e => s.delta_pool.contains e.1).foldl
        (fun m e => m.insert e.1 (resize_sketch e.2)) s.delta_sketches }
  else s

/-- One step of the node. -/
def handle (s : Node) (m : Env × Msg) : Node :=
  match m.2 with
  | .Dtx tx payload => s.handle_dtx m.1 tx payload
  | .Atx v => match account_tx_from_json v with
    | some t => (s.accept_account_tx m.1 t).2
    | none => s
  | .Blk block source => ((s.install m.1 block source).2).retry_pending m.1
  | .SyncBatch peer blocks payloads => s.handle_sync_batch m.1 peer blocks payloads
  | .ShardBatch current bodies => s.handle_shard_batch m.1 current bodies
  | .Scores height scores sketches => s.handle_scores height scores sketches
  | .Propose attempt => s.propose m.1 attempt

def run (s : Node) (ms : List (Env × Msg)) : Node := ms.foldl handle s

/-- A fresh node on a tree, with an empty disk. -/
def start (tree : BlockTree) (key : Key) (cfg : NodeConfig) : Node where
  tree
  store := .empty
  key
  blocks_full := ∅
  da_pruned_to := 0
  payloads := ∅
  delta_pool := ∅
  delta_scores := ∅
  delta_sketches := ∅
  account_pool := ∅
  pending := ∅
  pending_at := ∅
  seen := ∅
  seen_order := []
  want_deltas := ∅
  cfg

end Node

end Sestrian
