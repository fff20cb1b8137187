import Sestrian.Code.Da

/-!
# Availability sampling (`da.rs`)

Validators fetch a few shards, the same ones for the same seed, and check each against the root.
-/

namespace Sestrian

namespace da

variable [Crypto]

/-- The sibling, and whether it stands on the left. -/
abbrev ProofStep := Bool × Hash

def merkle_build (leaves : List (List UInt8)) : List (List Hash) := merkle.levels (leaves.map merkle.leaf_hash)

/-- The same walk as in `merkle.rs`. The source panics on an index past the leaves. -/
def merkle_proof (levels : List (List Hash)) (index : Nat) : List ProofStep := merkle.proof levels index

def merkle_verify (data : List UInt8) (path : List ProofStep) (root : Hash) : Bool :=
  merkle.verify_leaf (merkle.leaf_hash data) path root

structure DaBlob where
  shards : List (List UInt8)
  orig_len : Nat
  k : Nat
  n : Nat
  levels : List (List Hash)

namespace DaBlob

omit [Crypto] in
def root (blob : DaBlob) : Hash := (blob.levels.getLastD []).headD zero_hash

omit [Crypto] in
def proof (blob : DaBlob) (i : Nat) : List ProofStep := merkle_proof blob.levels i

end DaBlob

/-- The source asserts `0 < k ≤ n ≤ 255`. -/
def disperse (body : List UInt8) (k n : Nat) : DaBlob :=
  let shards := encode body k n
  { shards, orig_len := body.length, k, n, levels := merkle_build shards }

/-- What a counter picks. -/
def pick (seed : List UInt8) (n : Nat) (counter : UInt64) : Nat :=
  let d := (sha256 (seed ++ le_bytes 8 counter.toNat)).val
  from_be_bytes (d.take 8).reverse % n

/-- The loop draws until it has enough different indices. -/
def sample_from (seed : List UInt8) (n want : Nat) : Nat → UInt64 → List Nat → Option (List Nat)
  | 0, _, chosen => if chosen.length < want then none else some chosen
  | fuel + 1, counter, chosen =>
    if chosen.length < want then
      let drawn := pick seed n counter
      sample_from seed n want fuel (counter + 1) (if chosen.contains drawn then chosen else chosen ++ [drawn])
    else some chosen

/-- `none` when the draws do not suffice. -/
def sample_indices (draws : Nat) (seed : List UInt8) (n num_samples : Nat) : Option (List Nat) :=
  sample_from seed n (min num_samples n) draws 0 []

/-- Every sampled shard is there, and proves against the root. -/
def sample_available (draws : Nat) (available : Shards) (blob : DaBlob) (seed : List UInt8) (num_samples : Nat) :
    Option Bool := do
  let sampled ← sample_indices draws seed blob.n num_samples
  pure (sampled.all fun i => match available[UInt32.ofNat i]? with
    | none => false
    | some shard => merkle_verify shard (blob.proof i) blob.root)

end da

end Sestrian
