import Sestrian.Code.Client
import Sestrian.Code.Serve

/-!
# What the trainer claims and sends (`client/miner_bridge.py`, `client/compress.py`)

Page ids are the node's `u32`. A vector is its quantised components.
-/

namespace Sestrian.client

/-! ## Compression -/

/-- The payload of `compress`, before its bytes are put into base64. -/
structure Sparse where
  n : Nat
  idx : List UInt8
  val : List UInt8

def payload_json (payload : Sparse) : Payload := ⟨payload.n, b64 payload.idx, b64 payload.val⟩

/-- `tobytes()` of an array of four-byte words. -/
def word_bytes (xs : List UInt32) : List UInt8 := xs.flatMap fun x => le_bytes 4 x.toNat

def nonzero (q : List Int64) : List Nat := (List.range q.length).filter fun i => q.getD i 0 ≠ 0

section Compress

variable (argpartition : List Int64 → Nat → List Nat) (keep_frac : Nat → Nat)

/-- How many components are kept. `keep_frac n` is the fraction of `n`, cut to an integer. -/
def keep_count (n min_keep max_keep : Nat) : Nat :=
  let k := max (max 1 (keep_frac n)) min_keep
  if max_keep = 0 then k else min k max_keep

/-- The indices of the `k` largest magnitudes. `np.abs` leaves the least integer as it is. -/
def kept (q : List Int64) (k : Nat) : List Nat :=
  let n := q.length
  if n ≤ k then nonzero q
  else ((argpartition (q.map Int64.abs) (n - k)).drop (n - k)).insertionSort (· ≤ ·)

/-- The result is missing where the source raises `ValueError`. -/
def compress (q : List Int64) (min_keep max_keep : Nat) : Option Sparse :=
  let idx := (kept argpartition q (keep_count keep_frac q.length min_keep max_keep)).map UInt32.ofNat
  let vals := idx.map fun i => q.getD i.toNat 0
  if vals.any fun v => 2147483647 < v.abs then none
  else some ⟨q.length, word_bytes idx, word_bytes (vals.map fun v => v.toInt32.toUInt32)⟩

end Compress

/-! ## Claim planning -/

namespace ChainLayout

def page_span (layout : ChainLayout) (page_id : UInt32) : Nat × Nat := layout.page_spans.getD page_id.toNat (0, 0)

def zero_outside (layout : ChainLayout) (chain_delta : List Int64) (pages : List UInt32) : List Int64 :=
  chain_delta.zipIdx.map fun xi =>
    if pages.any fun p => (layout.page_span p).1 ≤ xi.2 && xi.2 < (layout.page_span p).2 then xi.1 else 0

end ChainLayout

section Plan

variable (layout : ChainLayout) (chain_delta : List Int64)

def plen (p : UInt32) : Nat := (layout.page_span p).2 - (layout.page_span p).1

/-- The gradient mass of a page, summed as `int64`. -/
def mass (p : UInt32) : Int64 :=
  ((slice chain_delta (layout.page_span p).1 (layout.page_span p).2).map Int64.abs).sum

/-- The order of the sort key `(-mass[p], p)`. -/
def rank_le (p q : UInt32) : Prop :=
  mass layout chain_delta q < mass layout chain_delta p ∨ mass layout chain_delta p = mass layout chain_delta q ∧ p ≤ q

instance : DecidableRel (rank_le layout chain_delta) := fun p q => by unfold rank_le; infer_instance

def ranked (active : List UInt32) : List UInt32 := active.insertionSort (rank_le layout chain_delta)

/-- One page of the ranking: `(claim, used)` before and after it. -/
def claim_page (budget : Nat) (a : List UInt32 × Nat) (pg : UInt32) : List UInt32 × Nat :=
  if a.2 + plen layout pg ≤ budget ∧ 0 < mass layout chain_delta pg then (a.1 ++ [pg], a.2 + plen layout pg) else a

def greedy (active : List UInt32) (max_nnz quota_4dp : Nat) : List UInt32 × Nat :=
  (ranked layout chain_delta active).foldl (claim_page layout chain_delta (max_nnz * 1000000 / quota_4dp)) ([], 0)

/-- The claim in ascending order, and the floor on what is kept. With no active page the source
fails at `ranked[0]`, and here the claim is empty. -/
def plan (active : List UInt32) (min_nnz max_nnz quota_4dp : Nat) : List UInt32 × Nat :=
  if max_nnz ≠ 0 ∧ quota_4dp ≠ 0 then
    let (claim, used) := greedy layout chain_delta active max_nnz quota_4dp
    let claim := if claim = [] then (ranked layout chain_delta active).take 1 else claim
    (claim.insertionSort (· ≤ ·), used * quota_4dp / 1000000)
  else (active, min_nnz)

/-- The vector to be compressed. `full` is this round's delta and the residual, quantised; the
source zeroes both summands outside the claim, so it zeroes their sum. -/
def to_compress (full : List Int64) (active : List UInt32) (min_nnz max_nnz quota_4dp : Nat) : List Int64 :=
  layout.zero_outside full (plan layout chain_delta active min_nnz max_nnz quota_4dp).1

/-- The `delta` message: its pages and its payload. -/
def delta_message (argpartition : List Int64 → Nat → List Nat) (keep_frac : Nat → Nat) (full : List Int64)
    (active : List UInt32) (min_nnz max_nnz quota_4dp : Nat) : Option (List UInt32 × Payload) :=
  let (claim, min_keep) := plan layout chain_delta active min_nnz max_nnz quota_4dp
  (compress argpartition keep_frac (to_compress layout chain_delta full active min_nnz max_nnz quota_4dp) min_keep
    max_nnz).map fun payload => (claim.insertionSort (· ≤ ·), payload_json payload)

end Plan

end Sestrian.client
