import Sestrian.Code.Da
import Sestrian.Code.Proto

/-!
# The node's disk (`store.rs`)

Every write succeeds: what follows a failed write is a halt or a retry, and no claim of this
development is about it. A payload file holds the bytes `serde_json` writes. Its reader is not
part of the repository, so both directions are a parameter.

A key is one component of a path, as the hex of a hash is. `store.rs` joins whatever a peer calls a
body to the directory, so a name with separators can reach another body's place; results about what is
kept ask for hex names.
-/

namespace Sestrian

/-- `serde_json` on payloads. -/
class Serde where
  to_vec : Payload → List UInt8
  from_slice : List UInt8 → Option Payload

variable [Crypto] [Serde]

/-- `meta.json` of a shard directory. The root is empty when the shards came from peers. -/
structure DaMeta where
  root : String
  orig_len : Nat
  k : Nat
  n : Nat

structure DaDir where
  info : Option DaMeta
  shards : da.Shards

/-- The shards were made here, from a whole body. -/
def DaDir.made (d : DaDir) : Bool := d.info.any fun m => m.root ≠ ""

structure Store where
  payloads : Dict (List UInt8)
  da : Dict DaDir

namespace Store

def DA_K : Nat := 4
def DA_N : Nat := 12
def GENESIS_DA_KEY : String := "__genesis__"

def empty : Store := ⟨∅, ∅⟩

def dir (s : Store) (key : String) : DaDir := s.da[key]?.getD ⟨none, ∅⟩

def dispersed (s : Store) (key : String) : Bool := (s.dir key).made

/-- Writes every shard of the body over what the directory holds. -/
def write_shards (shards : da.Shards) (encoded : List (List UInt8)) : da.Shards :=
  encoded.zipIdx.foldl (fun m sh => m.insert (UInt32.ofNat sh.2) sh.1) shards

def disperse_bytes (s : Store) (key : String) (bytes : List UInt8) (k n : Nat) : Store :=
  if s.dispersed key then s
  else
    let encoded := da.encode bytes k n
    let root := hex_encode (merkle.root encoded).val
    let d : DaDir :=
      { info := some { root, orig_len := bytes.length, k, n }
        shards := write_shards (s.dir key).shards encoded }
    { s with da := s.da.insert key d }

def reconstruct_bytes (s : Store) (key : String) : Option (List UInt8) := do
  let m ← (s.dir key).info
  da.reconstruct (s.dir key).shards m.k m.orig_len

def disperse_payload (s : Store) (txid : String) (p : Payload) : Store :=
  s.disperse_bytes txid (Serde.to_vec p) DA_K DA_N

def reconstruct_payload (s : Store) (txid : String) : Option Payload := do
  Serde.from_slice (← s.reconstruct_bytes txid)

def has_payload (s : Store) (txid : String) : Bool := s.payloads.contains txid

/-- A file that exists is never written again. -/
def put_payload (s : Store) (txid : String) (p : Payload) : Store :=
  if s.has_payload txid then s
  else ({ s with payloads := s.payloads.insert txid (Serde.to_vec p) }).disperse_payload txid p

def get_payload (s : Store) (txid : String) : Option Payload :=
  (s.payloads[txid]?.bind Serde.from_slice).or (s.reconstruct_payload txid)

def remove_payload (s : Store) (txid : String) : Store :=
  { payloads := s.payloads.erase txid, da := s.da.erase txid }

def put_shard (s : Store) (txid : String) (i : UInt32) (data : List UInt8) (k n orig_len : Nat) : Store :=
  let d : DaDir :=
    { info := (s.dir txid).info.or (some { root := "", orig_len, k, n })
      shards := (s.dir txid).shards.insert i data }
  { s with da := s.da.insert txid d }

def prune_body_to_shards (s : Store) (txid : String) (keep : List UInt32) : Store :=
  { payloads := s.payloads.erase txid
    da := s.da.alter txid fun d => d.map fun d => { d with shards := d.shards.filter fun i _ => keep.contains i } }

def delete_body_and_shards (s : Store) (txid : String) : Store :=
  { payloads := s.payloads.erase txid, da := s.da.erase txid }

end Store

end Sestrian
