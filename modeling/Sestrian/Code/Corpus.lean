import Sestrian.Code.Da

/-!
# The corpus (`corpus.rs`)

A corpus is split into chunks, each chunk has the root of its shards, and the corpus commits to the
roots in order.
-/

namespace Sestrian

namespace corpus

variable [Crypto]

def CHUNK_BYTES : Nat := 4 <<< 20
def CHUNK_K : Nat := 4
def CHUNK_N : Nat := 12

def chunk_count (size_bytes : UInt64) : UInt64 :=
  if size_bytes = 0 then 0
  else
    let d := size_bytes / UInt64.ofNat CHUNK_BYTES
    if size_bytes % UInt64.ofNat CHUNK_BYTES > 0 then d + 1 else d

/-- The tree of `da.rs` is that of `merkle.rs`. -/
def chunk_root (chunk : List UInt8) : List UInt8 := (merkle.root (da.encode chunk CHUNK_K CHUNK_N)).val

def manifest_root (chunk_roots : List (List UInt8)) : Option String :=
  if chunk_roots.isEmpty then none else some (hex_encode (merkle.root chunk_roots).val)

structure CorpusManifest where
  data_hash : String
  size_bytes : UInt64
  da_root : String
  chunk_roots : List (List UInt8)
  deriving DecidableEq

/-- `std::io::Read`: some of the bytes that are left, at most as many as asked for, or an error. No bytes at all are
the end. -/
structure Reader (σ : Type) where
  read : σ → Nat → Except String (List UInt8 × σ)

/-- The inner loop. Every read that goes on brings a byte, so `CHUNK_BYTES` rounds are enough. -/
def fill {σ : Type} (r : Reader σ) : Nat → σ → List UInt8 → Except String (List UInt8 × σ)
  | 0, s, buf => .ok (buf, s)
  | rounds + 1, s, buf =>
    if buf.length < CHUNK_BYTES then
      match r.read s (CHUNK_BYTES - buf.length) with
      | .error e => .error e
      | .ok (piece, s) => if piece.length = 0 then .ok (buf, s) else fill r rounds s (buf ++ piece)
    else .ok (buf, s)

/-- What `build` has when the stream ends. `seen` is what was hashed. -/
def manifest (seen : List UInt8) (size : UInt64) (roots : List (List UInt8)) : CorpusManifest where
  data_hash := hex_encode (sha256 seen).val
  size_bytes := size
  da_root := (manifest_root roots).getD ""
  chunk_roots := roots

/-- The outer loop, `none` when `fuel` chunks are not the end of the stream. -/
def build_from {σ : Type} (r : Reader σ) : Nat → σ → List UInt8 → UInt64 → List (List UInt8) →
    Option (Except String CorpusManifest)
  | 0, _, _, _, _ => none
  | fuel + 1, s, seen, size, roots =>
    match fill r CHUNK_BYTES s [] with
    | .error e => some (.error e)
    | .ok (buf, s) =>
      if buf.length = 0 then some (.ok (manifest seen size roots))
      else
        let seen := seen ++ buf
        let size := size + UInt64.ofNat buf.length
        let roots := roots ++ [chunk_root buf]
        if buf.length < CHUNK_BYTES then some (.ok (manifest seen size roots))
        else build_from r fuel s seen size roots

def build {σ : Type} (r : Reader σ) (fuel : Nat) (s : σ) : Option (Except String CorpusManifest) :=
  build_from r fuel s [] 0 []

def verify_chunk (chunk : List UInt8) (index : Nat) (chunk_roots : List (List UInt8)) (da_root : String) : Bool :=
  if index ≥ chunk_roots.length then false
  else if chunk_root chunk ≠ chunk_roots.getD index [] then false
  else
    match manifest_root chunk_roots with
    | some r => r = da_root
    | none => false

end corpus

end Sestrian
