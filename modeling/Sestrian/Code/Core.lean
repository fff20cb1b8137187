import Sestrian.Code.Model

/-!
# Aggregation, delta transactions and headers (`lib.rs`)
-/

namespace Sestrian

variable [Crypto]

/-! ## The trimmed mean -/

/-- Every call trims `0.2`. For fewer than `2^50` contributors `(k as f64 * 0.2).floor()` is
`k / 5`, so the model divides integers. -/
def trim_bounds (k : Nat) : Nat × Nat :=
  let lo := if k ≥ 3 then max (k / 5) 1 else k / 5
  let hi := k - lo
  if hi > lo then (lo, hi) else (0, k)

def trimmed_mean_scalar (col : List Int64) : Int64 :=
  let (lo, hi) := trim_bounds col.length
  let sorted := col.insertionSort (· ≤ ·)
  let sum := (slice sorted lo hi).foldl (· + ·) 0
  Int64.ofInt (sum.toInt / ((hi - lo : Nat) : Int))

/-- Column `i` of the deltas. -/
def column (deltas : List (List Int64)) (i : Nat) : List Int64 := deltas.map fun d => d.getD i 0

def trimmed_mean (deltas : List (List Int64)) : List Int64 :=
  (List.range (deltas.headD []).length).map fun i => trimmed_mean_scalar (column deltas i)

/-- Adds `mean` into `w[start..]`, one wrapping addition for each entry of `mean`. -/
def add_at (w : List Int64) (start : Nat) (mean : List Int64) : List Int64 :=
  w.mapIdx fun i x => if start ≤ i then x + mean.getD (i - start) 0 else x

/-- The bodies whose claims include the page, cut to its span. -/
def contributors (bodies : List (List Int64)) (claims : List (List UInt32)) (page_id start stop : Nat) :
    List (List Int64) :=
  ((bodies.zip claims).filter fun bc => bc.2.contains (UInt32.ofNat page_id)).map fun bc =>
    slice bc.1 start stop

def page_step (bodies : List (List Int64)) (claims : List (List UInt32)) (w : List Int64)
    (page : (Nat × Nat) × Nat) : List Int64 :=
  let cs := contributors bodies claims page.2 page.1.1 page.1.2
  if cs.isEmpty then w else add_at w page.1.1 (trimmed_mean cs)

def paged_transition (parent_w : List Int64) (bodies : List (List Int64)) (claims : List (List UInt32))
    (spans : List (Nat × Nat)) : List Int64 :=
  spans.zipIdx.foldl (page_step bodies claims) parent_w

/-! ## Delta bodies -/

def delta_hash (body : List UInt8) : String := sha256_hex body

/-- A sparse body as the source documents it: the dense length, and the nonzero coordinates
in increasing order. `Payload::coords` makes no other. -/
structure SparseBody where
  n : Nat
  coords : List (UInt32 × Int64)
  sorted : coords.Pairwise fun a b => a.1 < b.1
  nonzero : ∀ c ∈ coords, c.2 ≠ 0
  in_range : ∀ c ∈ coords, c.1.toNat < n

/-- The byte image from coordinate `pos` on. -/
def sparse_image (n : Nat) : Nat → List (UInt32 × Int64) → List UInt8
  | pos, [] => List.replicate ((n - pos) * 8) 0
  | pos, (i, v) :: rest =>
    List.replicate ((i.toNat - pos) * 8) 0 ++ le_bytes 8 v.toUInt64.toNat ++ sparse_image n (i.toNat + 1) rest

def delta_hash_sparse (n : Nat) (coords : List (UInt32 × Int64)) : String := sha256_hex (sparse_image n 0 coords)

/-! ## Delta transactions -/

structure BackpropTx where
  miner : String
  base_height : UInt64
  delta_hash : String
  da_pointer : String
  bond : UInt64
  pages : List UInt32
  data_refs : List String
  sig : List UInt8
  deriving DecidableEq

namespace BackpropTx

def canonical_refs (tx : BackpropTx) : List String := (tx.data_refs.insertionSort (· ≤ ·)).dedup

def canonical_pages (tx : BackpropTx) : List UInt32 := (tx.pages.insertionSort (· ≤ ·)).dedup

def signing_parts (tx : BackpropTx) : List (List UInt8) :=
  [as_bytes "backprop", as_bytes tx.miner, as_bytes (toString tx.base_height.toNat),
   as_bytes tx.delta_hash, as_bytes tx.da_pointer, as_bytes (toString tx.bond.toNat),
   as_bytes (toString tx.canonical_pages.length)] ++
  tx.canonical_pages.map (fun p => as_bytes (toString p.toNat)) ++
  [as_bytes (toString tx.canonical_refs.length)] ++ tx.canonical_refs.map as_bytes

def signing_bytes (tx : BackpropTx) : List UInt8 := frame tx.signing_parts

def txid (tx : BackpropTx) : String := sha256_hex tx.signing_bytes

def verify (tx : BackpropTx) : Bool := verify_sig tx.miner tx.signing_bytes tx.sig

end BackpropTx

def txset_root (txids : List String) : String := set_root txids

/-! ## Protocol version -/

def expected_version_at (height : UInt64) (params : GenesisParams) : UInt64 :=
  if params.v5_height ≠ 0 ∧ height ≥ params.v5_height then 5
  else if height ≥ params.v3_height then 3
  else 2

/-! ## Block header -/

structure Header where
  height : UInt64
  prev_hash : String
  state_root : String
  txset_root : String
  n_txs : UInt64
  work : UInt64
  proposer : String
  transfer_root : String
  ledger_root : String
  data_root : String
  vrf_proof : String
  score_root : String
  sketch_root : String
  model_root : String
  vrf_attempt : UInt64
  version : UInt64
  deriving DecidableEq

namespace Header

def str_field (key val : String) : List UInt8 := as_bytes ("\"" ++ key ++ "\": \"") ++ as_bytes val ++ as_bytes "\""
def num_field (key : String) (val : UInt64) : List UInt8 :=
  as_bytes ("\"" ++ key ++ "\": ") ++ as_bytes (toString val.toNat)

/-- The bytes of the text. The values are pasted without escapes, as the source does. -/
def canonical_json (h : Header) : List UInt8 :=
  as_bytes "\x7b" ++ (as_bytes ", ").intercalate
    [str_field "data_root" h.data_root, num_field "height" h.height,
     str_field "ledger_root" h.ledger_root, str_field "model_root" h.model_root,
     num_field "n_txs" h.n_txs, str_field "prev_hash" h.prev_hash, str_field "proposer" h.proposer,
     str_field "score_root" h.score_root, str_field "sketch_root" h.sketch_root,
     str_field "state_root" h.state_root, str_field "transfer_root" h.transfer_root,
     str_field "txset_root" h.txset_root, num_field "version" h.version,
     num_field "vrf_attempt" h.vrf_attempt, str_field "vrf_proof" h.vrf_proof,
     num_field "work" h.work] ++ as_bytes "\x7d"

def block_hash (h : Header) : String := sha256_hex h.canonical_json

end Header

end Sestrian
