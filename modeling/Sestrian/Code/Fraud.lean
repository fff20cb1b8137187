import Sestrian.Code.Decode
import Sestrian.Code.Value
import Sestrian.Lib.Check

/-!
# Page fraud proofs (`fraud.rs`, `fraud_bridge.rs`)

A proof comes as JSON from any peer. A verdict is a result, and what panics is an index, an `unwrap`, a subtraction
below zero and a vector that does not fit in memory. `from_str` is the parser of `serde_json`.
-/

open Panic

namespace Sestrian

namespace fraud

open serde_json (Value)

variable [Crypto]

structure Body where
  n : Nat
  idx : List UInt64
  val : List Int64

structure PageFraudProof where
  header : Header
  parent_header : Header
  parent_model_json : String
  committed_leaves : List String
  page_id : Nat
  txids : List String
  txs : List BackpropTx
  bodies : List (String × Body)
  parent_page : List Int64
  parent_path : List (Bool × String)

/-- A rejected run is a verdict with an `invalid:` reason. -/
abbrev Run := Except (Stop String)

/-! ## The verifier -/

def as_hash (s : String) : Option Hash :=
  (hex_decode s).bind fun b => if h : b.length = 32 then some ⟨b, h⟩ else none

/-- The pages of the parent model, which binds through the parent header. -/
def open_model (from_str : String → Option Value) (p : PageFraudProof) : Except String (List Value) := do
  Check.require (p.header.prev_hash = p.parent_header.block_hash) "header does not extend parent"
  Check.require (sha256_hex (as_bytes p.parent_model_json) = p.parent_header.model_root)
    "parent model json does not match model_root"
  let mj ← Check.ok_or (from_str p.parent_model_json) "unparseable parent model json"
  let pages ← Check.ok_or ((mj.get "pages").bind Value.as_array) "parent model has no pages"
  Check.require (pages ≠ []) "parent model has no pages"
  Check.require (p.page_id < pages.length) "page id out of range"
  pure pages

def span (pages : List Value) (i : Nat) : Run (Nat × Nat) := do
  let page ← unwrap pages[i]?
  let r ← unwrap page.as_array
  let s ← unwrap r[0]?
  let s ← unwrap s.as_u64
  let e ← unwrap r[1]?
  let e ← unwrap e.as_u64
  pure (s.toNat, e.toNat)

/-- The committed leaves and the set of transactions. -/
def check_set (p : PageFraudProof) (pages : List Value) : Except String (List Hash) := do
  Check.require (p.committed_leaves.length = pages.length) "growth blocks are not disputable in fraud v1"
  let level ← Check.ok_or (p.committed_leaves.mapM as_hash) "malformed committed leaf"
  Check.require (hex_encode (merkle.root_from_hashes level).val = p.header.state_root)
    "committed leaves do not fold to state_root"
  Check.require (set_root p.txids = p.header.txset_root) "txids do not reproduce txset_root"
  Check.require (p.txs.length = p.txids.length ∧ UInt64.ofNat p.txids.length = p.header.n_txs) "tx list incomplete"
  pure level

/-- The body of a transaction that claims the page. -/
def claim (p : PageFraudProof) (dim : Nat) (tx : BackpropTx) : Except String (Option Body) := do
  Check.require (tx.txid ∈ p.txids) "tx not in committed set"
  Check.require (tx.verify = true) "bad tx signature"
  Check.require (tx.base_height = p.parent_header.height) "tx base height mismatch"
  if UInt32.ofNat p.page_id ∉ tx.canonical_pages then pure none
  else
    let body ← Check.ok_or (p.bodies.lookup tx.txid) "missing claimant body"
    Check.require (body.n = dim ∧ body.idx.length = body.val.length) "malformed body"
    pure (some body)

def write_coords (dim : Nat) : List (UInt64 × Int64) → Int64 → List Int64 → Except String (List Int64)
  | [], _, dense => .ok dense
  | (i, v) :: rest, last, dense =>
    if i.toNat ≥ dim ∨ i.toInt64 ≤ last then .error "body coords not sorted-unique in range"
    else write_coords dim rest i.toInt64 (dense.set i.toNat v)

/-- The dense image of a body, checked against the transaction. -/
def dense_image (dim : Nat) (tx : BackpropTx) (body : Body) : Except String (List Int64) := do
  let dense ← write_coords dim (body.idx.zip body.val) (-1) (List.replicate dim 0)
  Check.require (delta_hash (int64_bytes dense) = tx.delta_hash) "body does not match delta_hash"
  pure dense

/-- `vec![0i64; n]` with so many bytes to be had. -/
def alloc_in (memory n : Nat) : Run Unit := if n * 8 ≤ memory then .ok () else .error .panic

/-- `l[s..e]`. -/
def slice_of {α : Type} (l : List α) (s e : Nat) : Run (List α) :=
  unwrap (if s ≤ e ∧ e ≤ l.length then some (slice l s e) else none)

/-- The page of a claimant. -/
def column (memory s e dim : Nat) (tx : BackpropTx) (body : Body) : Run (List Int64) := do
  alloc_in memory dim
  let dense ← lift_check (dense_image dim tx body)
  slice_of dense s e

/-- One round of the loop over the transactions. -/
def claim_column (memory : Nat) (p : PageFraudProof) (s e dim : Nat) (cols : List (List Int64)) (tx : BackpropTx) :
    Run (List (List Int64)) := do
  match ← lift_check (claim p dim tx) with
  | none => pure cols
  | some body =>
    let col ← column memory s e dim tx body
    pure (cols ++ [col])

/-- `e - s`. -/
def width (s e : Nat) : Run Nat := unwrap (if s ≤ e then some (e - s) else none)

def check_parent (p : PageFraudProof) (w : Nat) : Except String Unit := do
  Check.require (p.parent_page.length = w) "parent page span mismatch"
  let path ← Check.ok_or (p.parent_path.mapM fun b => (as_hash b.2).map fun h => (b.1, h)) "malformed branch hash"
  let root ← Check.ok_or (as_hash p.parent_header.state_root) "malformed parent state_root"
  Check.require (merkle.verify_leaf (merkle.leaf_hash (int64_bytes p.parent_page)) path root = true)
    "parent page not in parent state_root"

/-- The page one step on. -/
def recompute (parent_page : List Int64) (cols : List (List Int64)) (w : Nat) : Run (List Int64) :=
  if cols = [] then pure parent_page
  else (List.range w).foldlM (fun page j => do
    let col ← cols.mapM (fun z => unwrap z[j]?)
    let x ← unwrap page[j]?
    pure (page.set j (x + trimmed_mean_scalar col))) parent_page

def verdict (p : PageFraudProof) (recomputed committed : Hash) : Bool × String :=
  if recomputed = committed then (false, "invalid: page aggregates correctly — no fraud")
  else
    (true, "FRAUD: page " ++ toString p.page_id ++ " committed " ++ String.ofList ((hex_encode committed.val).toList.take 12) ++
      "… but honest " ++ String.ofList ((hex_encode recomputed.val).toList.take 12) ++ "…")

def judge (from_str : String → Option Value) (memory : Nat) (p : PageFraudProof) : Run (Bool × String) := do
  let pages ← lift_check (open_model from_str p)
  let page_span ← span pages p.page_id
  let last_span ← span pages (pages.length - 1)
  let level ← lift_check (check_set p pages)
  let cols ← p.txs.foldlM (claim_column memory p page_span.1 page_span.2 last_span.2) []
  let w ← width page_span.1 page_span.2
  lift_check (check_parent p w)
  let page ← recompute p.parent_page cols w
  let committed ← unwrap level[p.page_id]?
  pure (verdict p (merkle.leaf_hash (int64_bytes page)) committed)

def verify (from_str : String → Option Value) (memory : Nat) (p : PageFraudProof) : MayPanic (Bool × String) :=
  match judge from_str memory p with
  | .ok v => .ok v
  | .error (.reject why) => .ok (false, "invalid: " ++ why)
  | .error .panic => .error .panic

/-! ## The bridge -/

def strings (items : List Value) : List String := items.filterMap Value.as_str

def header (v : Value) : Option Header := do
  some {
    height := ← (v.index "height").as_u64
    prev_hash := ← (v.index "prev_hash").as_str
    state_root := ← (v.index "state_root").as_str
    txset_root := ← (v.index "txset_root").as_str
    n_txs := ← (v.index "n_txs").as_u64
    work := ← (v.index "work").as_u64
    proposer := ← (v.index "proposer").as_str
    transfer_root := ← (v.index "transfer_root").as_str
    ledger_root := ← (v.index "ledger_root").as_str
    data_root := ← (v.index "data_root").as_str
    vrf_proof := ← (v.index "vrf_proof").as_str
    score_root := ← (v.index "score_root").as_str
    sketch_root := ← (v.index "sketch_root").as_str
    model_root := ← (v.index "model_root").as_str
    vrf_attempt := ← (v.index "vrf_attempt").as_u64
    version := ← (v.index "version").as_u64 }

def tx (v : Value) : Option BackpropTx := do
  let pages := (← (v.index "pages").as_array).filterMap fun x => x.as_u64.map fun n => UInt32.ofNat n.toNat
  let data_refs := (((v.get "data_refs").bind Value.as_array).map strings).getD []
  some {
    miner := ← (v.index "miner").as_str
    base_height := ← (v.index "base_height").as_u64
    delta_hash := ← (v.index "delta_hash").as_str
    da_pointer := ← (v.index "da_pointer").as_str
    bond := (v.index "bond").as_u64.getD 0
    pages
    data_refs
    sig := ← hex_decode (← (v.index "sig_hex").as_str) }

def body (b : Value) : Option Body := do
  some {
    n := (← (b.index "n").as_u64).toNat
    idx := (← (b.index "idx").as_array).filterMap Value.as_u64
    val := (← (b.index "val").as_array).filterMap Value.as_i64 }

/-- One entry of the parent path. -/
def path_step (v : Value) : MayPanic (Bool × String) := do
  let a ← or_none v.as_array
  let side ← unwrap a[0]?
  let side ← or_none side.as_str
  let sib ← unwrap a[1]?
  let sib ← or_none sib.as_str
  pure (side = "L", sib)

/-- What is left to parse after the path. -/
def proof_of (v : Value) (bodies : List (String × Body)) (txs : List BackpropTx) (parent_path : List (Bool × String)) :
    Option PageFraudProof := do
  some {
    header := ← header (v.index "header")
    parent_header := ← header (v.index "parent_header")
    parent_model_json := ← (v.index "parent_model_json").as_str
    committed_leaves := strings (← (v.index "committed_leaves").as_array)
    page_id := (← (v.index "page_id").as_u64).toNat
    txids := strings (← (v.index "txids").as_array)
    txs
    bodies
    parent_page := (← (v.index "parent_page").as_array).filterMap Value.as_i64
    parent_path }

def parse_bodies (v : Value) : Option (List (String × Body)) := do
  (← (v.index "bodies").as_object).mapM fun f => do some (f.1, ← body f.2)

def parse_txs (v : Value) : Option (List BackpropTx) := do (← (v.index "txs").as_array).mapM tx

def fraud_verify (from_str : String → Option Value) (memory : Nat) (v : Value) : MayPanic (Bool × String) := do
  let bodies ← or_none (parse_bodies v)
  let txs ← or_none (parse_txs v)
  let entries ← or_none (v.index "parent_path").as_array
  let parent_path ← entries.mapM path_step
  let proof ← or_none (proof_of v bodies txs parent_path)
  verify from_str memory proof

end fraud

end Sestrian
