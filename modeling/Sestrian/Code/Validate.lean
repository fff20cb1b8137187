import Sestrian.Lib.Check
import Sestrian.Code.Lottery
import Sestrian.Code.Token

/-!
# Full validation of a block (`blocktree.rs`, `validate_block` and `validate_inner`)

`validate_inner` is one long function in the source. Here each of its numbered steps is a
function, and `validate_inner` runs them in the same order.
-/

open Check

namespace Sestrian

variable [Crypto]

/-- A dense body. Bodies come from payloads whose indices are `u32`, so no value stands past
coordinate `2^32`. -/
structure DenseBody where
  vals : List Int64
  addressable : ∀ i, vals.getD i 0 ≠ 0 → i < 2 ^ 32

structure Block where
  header : Header
  txs : List BackpropTx
  bodies : Dict DenseBody
  sparse : Dict SparseBody
  transfers : List TransferTx
  data_txs : List AccountTx
  scores : Dict UInt64
  sketches : Dict (List Int32)
  witness_leaves : List Hash

def Block.hash (b : Block) : String := b.header.block_hash

/-- A `ValidationError`, with the text of the source. -/
abbrev Validation := Except String

def SCORE_CAP : UInt64 := 1000000000
def SKETCH_DIM : Nat := 256
def SKETCH_SCALE : Int := 10000

def sketch_root (sketches : Dict (List Int32)) : String :=
  sha256_hex (TokenLedger.dict_json (fun sk => Json.arr (sk.map fun x => .num x.toInt)) sketches).compact

def scores_root (scores : Dict UInt64) : String :=
  sha256_hex (TokenLedger.dict_json TokenLedger.u64_json scores).compact

/-- Clamps to the `i64` range. -/
def sat64 (x : Int) : Int64 := Int64.ofInt (max (-2 ^ 63) (min (2 ^ 63 - 1) x))

/-- The committed score of each txid, or 1 for each when all are zero. -/
def effective_scores (txs : List BackpropTx) (scores : Dict UInt64) : Dict UInt64 :=
  let eff : Dict UInt64 := txs.foldl (fun m t => m.insert t.txid (scores[t.txid]?.getD 0)) ∅
  if eff.toList.all fun s => s.2 = 0 then txs.foldl (fun m t => m.insert t.txid 1) ∅ else eff

/-! ## Header -/

def check_lottery (h : Header) (parent_ledger : TokenLedger) : Validation Unit :=
  if h.proposer = "genesis" then pure ()
  else do
    let proof := (hex_decode h.vrf_proof).getD []
    require (h.vrf_attempt ≤ lottery.ATTEMPT_MAX) "vrf_attempt out of range"
    let stake := parent_ledger.balance (address h.proposer)
    let total := parent_ledger.supply
    require (lottery.eligible h.proposer proof h.prev_hash h.height h.vrf_attempt stake total)
      "proposer not eligible at this attempt"
    require (h.work = lottery.attempt_work proof h.vrf_attempt) "header.work is not the VRF-derived weight"

def check_header (block : Block) (parent_height : UInt64) (parent_ledger : TokenLedger)
    (params : GenesisParams) : Validation Unit := do
  let h := block.header
  let scheduled := expected_version_at h.height params
  require (h.version = scheduled) s!"header version {h.version} != scheduled {scheduled}"
  require (h.height = parent_height + 1) "height must be parent height + 1"
  require (h.n_txs.toNat = block.txs.length) "n_txs does not match tx count"
  check_lottery h parent_ledger

/-! ## Delta transactions -/

/-- The coordinate lies in a claimed page. -/
def in_claims (model : ModelState) (pages : List UInt32) (i : Nat) : Bool :=
  pages.any fun p => (model.page_span p.toNat).1 ≤ i && i < (model.page_span p.toNat).2

def check_claims (model : ModelState) (tx : BackpropTx) : Validation Unit := do
  require (tx.canonical_pages ≠ [] ∧ tx.pages = tx.canonical_pages) "tx pages must be canonical and nonempty"
  forM tx.canonical_pages fun p => require (model.is_active p.toNat) "tx claims missing/frozen page"

def check_lane (height : UInt64) (model : ModelState) (params : GenesisParams) (tx : BackpropTx) :
    Validation Unit :=
  if params.v5_height ≠ 0 ∧ height ≥ params.v5_height then
    let allowed := lanes.claimable_pages (height / params.lane_epoch_len) tx.miner model params.lane_width
    require (∀ p ∈ tx.canonical_pages, p ∈ allowed) "tx claims pages outside its lane"
  else pure ()

def check_body (block : Block) (dim : Nat) (tx : BackpropTx) : Validation Unit := do
  let body ← ok_or block.bodies[tx.da_pointer]? "missing DA body"
  require (body.vals.length = dim) "delta body length != model dimension"
  require (delta_hash (int64_bytes body.vals) = tx.delta_hash) "delta body hash mismatch"

/-- The rules on how many coordinates are nonzero: the quota and the envelope. -/
def check_quota (model : ModelState) (params : GenesisParams) (tx : BackpropTx) (nnz : Nat) :
    Validation Unit := do
  require ((model.required_nnz tx.canonical_pages).toNat ≤ nnz) "delta below work quota"
  require (nnz ≤ params.delta_max_nnz.toNat) "delta exceeds the envelope (max nnz)"

def body_of (block : Block) (tx : BackpropTx) : List Int64 :=
  (block.bodies[tx.da_pointer]?.map (·.vals)).getD []

def check_mask (block : Block) (model : ModelState) (params : GenesisParams) (tx : BackpropTx) :
    Validation Unit := do
  let body := body_of block tx
  require (∀ xi ∈ body.zipIdx, xi.1 ≠ 0 → in_claims model tx.canonical_pages xi.2)
    "delta body nonzero outside claimed pages"
  check_quota model params tx (body.filter (· ≠ 0)).length

/-- One round of the loop over the deltas. The body rules run only when there are weights. -/
def check_tx (block : Block) (parent_w : Option (List Int64)) (dim : Nat) (model : ModelState)
    (params : GenesisParams) (tx : BackpropTx) : Validation Unit := do
  require tx.verify "bad signature on tx"
  require (tx.base_height = block.header.height - 1) "tx base_height does not match parent"
  if parent_w.isSome then check_body block dim tx
  check_claims model tx
  check_lane block.header.height model params tx
  if parent_w.isSome then check_mask block model params tx

/-! ## Commitments -/

def check_sets (block : Block) : Validation Unit := do
  let ids := block.txs.map (·.txid)
  require (txset_root ids = block.header.txset_root) "txset_root mismatch"
  require ((∀ k ∈ block.scores.keys, k ∈ ids) ∧ ∀ id ∈ ids, id ∈ block.scores.keys)
    "scores must cover exactly the included txs"
  require (∀ v ∈ block.scores.values, v ≤ SCORE_CAP) "score out of range"
  require (scores_root block.scores = block.header.score_root) "score_root mismatch"
  require ((∀ k ∈ block.sketches.keys, k ∈ ids) ∧ ∀ id ∈ ids, id ∈ block.sketches.keys)
    "sketches must cover exactly the included txs"
  require (∀ v ∈ block.sketches.values, v.length = SKETCH_DIM) "sketch malformed"
  require (sketch_root block.sketches = block.header.sketch_root) "sketch_root mismatch"

/-! ## Model and weights -/

def zero_scored (block : Block) : UInt64 :=
  UInt64.ofNat (block.txs.filter fun t => block.scores[t.txid]?.getD 0 = 0).length

def fold_block (block : Block) (parent_model : ModelState) (params : GenesisParams) :
    ModelState × List Activation :=
  let h := block.header
  fold parent_model params h.height (UInt64.ofNat block.txs.length) (zero_scored block) h.prev_hash
    block.scores.values.sum h.proposer

def init_pages (params : GenesisParams) (activations : List Activation) : List (List Int64) :=
  activations.map fun a => page_init a.trigger a.page_id params.spec

/-- The weights after the block: each page's trimmed mean, then the pages that growth appends. -/
def dense_post (block : Block) (parent_w : List Int64) (parent_model : ModelState) (params : GenesisParams)
    (activations : List Activation) : List Int64 :=
  paged_transition parent_w (block.txs.map (body_of block)) (block.txs.map (·.canonical_pages))
    parent_model.spans ++ (init_pages params activations).flatten

/-! ## Token transition -/

structure Accrual where
  registry : Dict RegistryEntry
  miner_weights : Dict UInt64
  data_credits : Dict UInt64

def add_sketch (sketch : Option (List Int64)) (sk : List Int32) (n : Nat) : List Int64 :=
  let acc := match sketch with
    | some a => if a.isEmpty then List.replicate SKETCH_DIM 0 else a
    | none => List.replicate SKETCH_DIM 0
  (acc.zip sk).map fun ax => sat64 (ax.1.toInt + ax.2.toInt * SKETCH_SCALE / (n : Int))

def accrue_sketch (sk : List Int32) (n : Nat) (registry : Dict RegistryEntry) (key : String) :
    Dict RegistryEntry :=
  match registry[key]? with
  | some e => registry.insert key { e with sketch := some (add_sketch e.sketch sk n) }
  | none => registry

/-- The key of the active entry of each data hash, the last in key order. -/
def hash_to_key (led : TokenLedger) : Dict String :=
  led.registry.toList.foldl (fun m e => if e.2.status = .active then m.insert e.2.data_hash e.1 else m) ∅

def active_hashes (led : TokenLedger) : List String :=
  (led.registry.toList.filter fun e => e.2.status = .active).map (·.2.data_hash)

def weighted_hashes (led : TokenLedger) : List String :=
  (led.registry.toList.filter fun e => e.2.status = .active ∧ e.2.weight > 0).map (·.2.data_hash)

def add_to (m : Dict UInt64) (k : String) (x : UInt64) : Dict UInt64 := m.insert k (m[k]?.getD 0 + x)

def accrue_tx (eff : Dict UInt64) (active_set : List String) (keys : Dict String)
    (sketches : Dict (List Int32)) (acc : Accrual) (tx : BackpropTx) : Accrual :=
  let s := eff[tx.txid]?.getD 0
  let named := tx.canonical_refs.filter (active_set.contains ·)
  let sk := sketches[tx.txid]?.getD []
  let named_keys := tx.canonical_refs.filterMap (keys[·]?)
  { registry :=
      if sk.any (· ≠ 0) then named_keys.foldl (accrue_sketch sk named_keys.length) acc.registry
      else acc.registry
    miner_weights := add_to acc.miner_weights tx.miner s
    data_credits :=
      named.foldl (fun m r => add_to m r (s * 10000 / UInt64.ofNat named.length)) acc.data_credits }

def accrue (led : TokenLedger) (block : Block) : Accrual :=
  block.txs.foldl
    (accrue_tx (effective_scores block.txs block.scores) (weighted_hashes led) (hash_to_key led) block.sketches)
    { registry := led.registry, miner_weights := ∅, data_credits := ∅ }

def check_provenance (led : TokenLedger) (block : Block) : Validation Unit :=
  forM block.txs fun tx => require (∃ r ∈ tx.canonical_refs, r ∈ active_hashes led)
    "delta names no staked/available data (provenance required)"

/-- The sketches accrue, then the block is paid for. -/
def reward_block (led : TokenLedger) (block : Block) (data_contributor : Option String) : TokenLedger :=
  let acc := accrue led block
  ({ led with registry := acc.registry }).apply_reward block.header.height (block.txs.map BackpropTx.miner)
    block.header.proposer data_contributor.toList acc.data_credits acc.miner_weights

def lock_tx_bond (height : UInt64) (led : TokenLedger) (tx : BackpropTx) : Validation TokenLedger := do
  let (ok, led) := led.lock_bond tx.txid (address tx.miner) tx.bond height
  require ok "miner cannot afford delta bond"
  pure led

def apply_account_tx (height : UInt64) (recent_proposers : StrSet) (led : TokenLedger) (tx : AccountTx) :
    Validation TokenLedger := do
  let (ok, led) := match tx with
    | .Transfer t => led.apply_transfer t
    | _ => led.apply_data_tx tx height recent_proposers
  require ok "invalid account tx (sig/nonce/balance/gating)"
  pure led

def account_txs (block : Block) : List AccountTx :=
  canonical_account_txs (block.data_txs ++ block.transfers.map .Transfer)

/-- The ledger after the block, before its root is compared. -/
def token_transition (parent_ledger : TokenLedger) (block : Block) (data_contributor : Option String)
    (recent_proposers : StrSet) : Validation TokenLedger := do
  let height := block.header.height
  let led := (parent_ledger.resolve_expired_challenges height).resolve_expired_bonds height
  check_provenance led block
  let led := reward_block led block data_contributor
  let led ← block.txs.foldlM (lock_tx_bond height) led
  (account_txs block).foldlM (apply_account_tx height recent_proposers) led

/-! ## The validator -/

structure Validated where
  weights : Option (List Int64)
  ledger : TokenLedger
  model : ModelState
  activations : List Activation

def check_weights (block : Block) (parent_w : List Int64) (parent_model : ModelState) (params : GenesisParams)
    (post_model : ModelState) (activations : List Activation) : Validation (List Int64) := do
  let w := dense_post block parent_w parent_model params activations
  require (page_state_root w post_model = block.header.state_root) "state_root does not reproduce from txs"
  pure w

def validate_inner (block : Block) (parent_w : Option (List Int64)) (parent_height : UInt64)
    (parent_ledger : TokenLedger) (data_contributor : Option String) (recent_proposers : StrSet)
    (parent_model : ModelState) (params : GenesisParams) : Validation Validated := do
  let dim := (parent_w.map (·.length)).getD parent_model.dim
  check_header block parent_height parent_ledger params
  forM block.txs (check_tx block parent_w dim parent_model params)
  check_sets block
  let (post_model, activations) := fold_block block parent_model params
  let weights ← parent_w.mapM fun w => check_weights block w parent_model params post_model activations
  require (post_model.model_root = block.header.model_root) "model_root does not reproduce (fold divergence)"
  require (transfer_root block.transfers = block.header.transfer_root) "transfer_root mismatch"
  require (data_root block.data_txs = block.header.data_root) "data_root mismatch"
  let ledger ← token_transition parent_ledger block data_contributor recent_proposers
  require (ledger.root = block.header.ledger_root) "ledger_root does not reproduce from block"
  pure { weights, ledger, model := post_model, activations }

def validate_block (block : Block) (parent_w : List Int64) (parent_height : UInt64)
    (parent_ledger : TokenLedger) (data_contributor : Option String) (recent_proposers : StrSet)
    (parent_model : ModelState) (params : GenesisParams) :
    Validation (List Int64 × TokenLedger × ModelState) := do
  let v ← validate_inner block (some parent_w) parent_height parent_ledger data_contributor recent_proposers
    parent_model params
  pure (v.weights.getD [], v.ledger, v.model)

end Sestrian
