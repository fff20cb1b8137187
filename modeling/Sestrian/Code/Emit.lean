import Sestrian.Code.BlockTree
import Sestrian.Code.Fraud

/-!
# Making a page fraud proof (`node.rs`, `blocktree.rs`)

`json!` keeps the fields of an object in key order. The spans of the head's model lie in canon, so no slice of it panics.
-/

namespace Sestrian

open serde_json (Value)

variable [Crypto]

namespace BlockTree

/-- The coordinates of a delta whose body has the length of canon. -/
def honest_coords (t : BlockTree) (block : Block) (tx : BackpropTx) : Option (List (UInt32 × Int64)) := do
  let body ← (body_coords block tx).toOption
  if body.1 = t.canon.length then some body.2 else none

/-- The leaves that a block on the head should have published. Growth is left out. -/
def honest_leaves_at_head (t : BlockTree) (block : Block) : Option (List Hash) :=
  if block.header.prev_hash ≠ t.head then none
  else do
    let parent_model ← t.model[t.head]?
    let tx_coords ← block.txs.mapM (t.honest_coords block)
    some (t.state_root_with parent_model.spans (page_aggregate block parent_model.spans tx_coords) []).2

/-- A page of the head and its branch. -/
def head_page_evidence (t : BlockTree) (page_id : Nat) : Option (List Int64 × List (Bool × Hash)) := do
  let model ← t.model[t.head]?
  let p ← model.pages[page_id]?
  some (slice t.canon p.start p.stop, merkle.proof (merkle.levels t.page_leaves) page_id)

end BlockTree

namespace fraud

/-! ## The proof as JSON -/

def header_value (h : Header) : Value :=
  .object [("data_root", .string h.data_root), ("height", .of_u64 h.height), ("ledger_root", .string h.ledger_root),
    ("model_root", .string h.model_root), ("n_txs", .of_u64 h.n_txs), ("prev_hash", .string h.prev_hash),
    ("proposer", .string h.proposer), ("score_root", .string h.score_root), ("sketch_root", .string h.sketch_root),
    ("state_root", .string h.state_root), ("transfer_root", .string h.transfer_root),
    ("txset_root", .string h.txset_root), ("version", .of_u64 h.version), ("vrf_attempt", .of_u64 h.vrf_attempt),
    ("vrf_proof", .string h.vrf_proof), ("work", .of_u64 h.work)]

def tx_value (t : BackpropTx) : Value :=
  .object [("base_height", .of_u64 t.base_height), ("bond", .of_u64 t.bond), ("da_pointer", .string t.da_pointer),
    ("data_refs", .array (t.canonical_refs.map .string)), ("delta_hash", .string t.delta_hash),
    ("miner", .string t.miner), ("pages", .array (t.canonical_pages.map fun p => .of_u64 p.toUInt64)),
    ("sig_hex", .string (hex_encode t.sig))]

def body_value (n : Nat) (coords : List (UInt32 × Int64)) : Value :=
  .object [("idx", .array (coords.map fun c => .of_u64 c.1.toUInt64)), ("n", .of_u64 (UInt64.ofNat n)),
    ("val", .array (coords.map fun c => .of_i64 c.2))]

def step_value (s : Bool × Hash) : Value := .array [.string (if s.1 then "L" else "R"), .string (hex_encode s.2.val)]

def proof_value (header parent_header : Header) (parent_model_json : String) (committed_leaves : List String) (pid : Nat)
    (txs : List BackpropTx) (bodies : List (String × Value)) (parent_page : List Int64) (branch : List (Bool × Hash)) :
    Value :=
  .object [("bodies", .object bodies), ("committed_leaves", .array (committed_leaves.map .string)),
    ("header", header_value header), ("page_id", .of_u64 (UInt64.ofNat pid)),
    ("parent_header", header_value parent_header), ("parent_model_json", .string parent_model_json),
    ("parent_page", .array (parent_page.map .of_i64)), ("parent_path", .array (branch.map step_value)),
    ("txids", .array (txs.map fun t => .string t.txid)), ("txs", .array (txs.map tx_value))]

/-! ## The node -/

/-- The first page whose honest leaf is not the published text. -/
def disputed_page (honest : List Hash) (published : List String) : Option Nat :=
  (List.range honest.length).find? fun i => (honest[i]?.map fun h => hex_encode h.val) ≠ published[i]?

/-- The body of one transaction, when it claims the page. -/
def add_claimant (payloads : Dict Payload) (pid : Nat) (bodies : List (String × Value)) (t : BackpropTx) :
    Option (List (String × Value)) :=
  if UInt32.ofNat pid ∉ t.canonical_pages then some bodies
  else do
    let p ← payloads[t.txid]?
    let coords ← p.coords
    some (serde_json.insert_field t.txid (body_value p.n coords) bodies)

def build_proof (t : BlockTree) (payloads : Dict Payload) (sb : StoredBlock) : Option Value :=
  if sb.page_leaves = [] ∨ sb.header.prev_hash ≠ t.head then none
  else do
    let block ← sb.to_core_sparse payloads
    let honest ← t.honest_leaves_at_head block
    if honest.length ≠ sb.page_leaves.length then none
    else
      let pid ← disputed_page honest sb.page_leaves
      let evidence ← t.head_page_evidence pid
      let parent_hdr ← t.blocks[t.head]?
      let model ← t.model[t.head]?
      let bodies ← block.txs.foldlM (add_claimant payloads pid) []
      some (proof_value sb.header parent_hdr model.canonical_json sb.page_leaves pid block.txs bodies evidence.1 evidence.2)

/-- What goes out to the other nodes: only a proof that convicts here. -/
def emit_fraud_if_provable (from_str : String → Option Value) (memory : Nat) (t : BlockTree) (payloads : Dict Payload)
    (sb : StoredBlock) : MayPanic (Option Value) :=
  match build_proof t payloads sb with
  | none => .ok none
  | some proof =>
    match fraud_verify from_str memory proof with
    | .ok v => .ok (if v.1 then some proof else none)
    | .error (.reject _) => .ok none
    | .error .panic => .error .panic

end fraud

end Sestrian
