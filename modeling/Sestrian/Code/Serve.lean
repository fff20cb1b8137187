import Sestrian.Code.Produce

/-!
# Serving shards (`serve_shards`, `list_shard_indices`, `b64`)

The byte budget is a constant of the source and a parameter here. Sizes are `Nat`: the bytes
that are counted are in memory.
-/

namespace Sestrian

/-! ## Base64 -/

def b64_char (x : Nat) : UInt8 :=
  if x < 26 then UInt8.ofNat (65 + x)
  else if x < 52 then UInt8.ofNat (71 + x)
  else if x < 62 then UInt8.ofNat (x - 4)
  else if x = 62 then 43
  else 47

/-- Three bytes at a time. The last group is padded. -/
def b64_bytes : List UInt8 → List UInt8
  | [] => []
  | [a] => [b64_char (a.toNat / 4), b64_char (a.toNat % 4 * 16), 61, 61]
  | [a, b] =>
    let y := a.toNat * 256 + b.toNat
    [b64_char (y / 1024), b64_char (y / 16 % 64), b64_char (y % 16 * 4), 61]
  | a :: b :: c :: rest =>
    let z := (a.toNat * 256 + b.toNat) * 256 + c.toNat
    [b64_char (z / 262144), b64_char (z / 4096 % 64), b64_char (z / 64 % 64), b64_char (z % 64)] ++ b64_bytes rest

def b64 (v : List UInt8) : String := String.ofList ((b64_bytes v).map Char.ofUInt8)

/-! ## The disk -/

namespace Store

/-- The indices in ascending order. -/
def list_shard_indices (s : Store) (key : String) : List UInt32 := (s.dir key).shards.keys

def read_shard (s : Store) (key : String) (i : UInt32) : Option (List UInt8) := (s.dir key).shards[i]?

def shard_meta (s : Store) (txid : String) : Option DaMeta := (s.dir txid).info

end Store

/-! ## The handler -/

/-- What the handler reads and writes of the node. -/
structure ShardServer where
  byzantine_withhold : Bool
  store : Store
  serve_shard_cursor : Dict Nat

namespace ShardServer

/-- The loop over `step in 0..have.len()`: the bytes counted and the shards picked. -/
def pick_shards (budget : Nat) (held : List UInt32) (read : UInt32 → Option (List UInt8)) (cur : Nat) :
    List Nat → Nat → List (UInt32 × String) → Nat × List (UInt32 × String)
  | [], used, shards => (used, shards)
  | step :: steps, used, shards =>
    if used ≥ budget ∧ shards ≠ [] then (used, shards)
    else
      let pick := held[(cur + step) % held.length]?.getD 0
      match read pick with
      | some d => pick_shards budget held read cur steps (used + d.length * 4 / 3) (shards ++ [(pick, b64 d)])
      | none => pick_shards budget held read cur steps used shards

/-- The loop over the request. -/
structure Serving where
  bodies : List Node.BodyShards
  budget_used : Nat
  cursor : Dict Nat

/-- One body. Past the budget the source leaves the loop, and here every later round is idle. -/
def serve_body (budget : Nat) (store : Store) (a : Serving) (txid : String) : Serving :=
  if a.budget_used ≥ budget then a
  else match store.shard_meta txid with
    | none => a
    | some m =>
      let held := store.list_shard_indices txid
      if held = [] then a
      else
        let cur := a.cursor[txid]?.getD 0
        let (budget_used, shards) := pick_shards budget held (store.read_shard txid) cur (List.range held.length)
          a.budget_used []
        let body : Node.BodyShards :=
          { txid, k := (UInt32.ofNat m.k).toNat, n := (UInt32.ofNat m.n).toNat, orig_len := m.orig_len, shards }
        { bodies := if shards = [] then a.bodies else a.bodies ++ [body]
          budget_used
          cursor := a.cursor.insert txid ((cur + max shards.length 1) % max held.length 1) }

def serve_shards (budget : Nat) (s : ShardServer) (txids : List String) : List Node.BodyShards × ShardServer :=
  if s.byzantine_withhold then ([], s)
  else
    let a := (txids.take 32).foldl (serve_body budget s.store) ⟨[], 0, s.serve_shard_cursor⟩
    (a.bodies, { s with serve_shard_cursor := a.cursor })

/-- The responses to one request after another. -/
def responses (budget : Nat) : ShardServer → List (List String) → List (List Node.BodyShards)
  | _, [] => []
  | s, txids :: rest => (serve_shards budget s txids).1 :: responses budget (serve_shards budget s txids).2 rest

end ShardServer

end Sestrian
