import Sestrian.Code.CatchUp

/-!
# Serving a sync request (`node.rs`)

Headers first: the blocks of the window come whole, and bodies ride along oldest first until the
budget. The source panics on a hash of the head's line that the tree does not have.
-/

namespace Sestrian

open Walk

variable [Crypto] [Serde]

def SYNC_MAX_BLOCKS : Nat := 64
def SYNC_BYTE_BUDGET : Nat := 16 * 1024 * 1024

structure SyncRequest where
  from_height : UInt64
  count : UInt64
  want_genesis : Bool

structure SyncResponse where
  blocks : List StoredBlock
  payloads : Dict Payload
  head_height : UInt64
  genesis : Option (List Int64)

/-- A response that is being put together, and the size of the bodies in it. -/
structure SyncWindow where
  blocks : List StoredBlock
  payloads : Dict Payload
  bytes : Nat

namespace Node

omit [Crypto] in
/-- From memory, else from the disk. -/
def held_payload (s : Node) (id : String) : Option Payload := (s.payloads[id]?).or (s.store.get_payload id)

/-- The bodies of a block that travel inline. Oversized ones travel by shards. -/
def inline_bodies (s : Node) (sb : StoredBlock) : List (String × Payload) :=
  sb.txids.filterMap fun id => (s.held_payload id).bind fun p =>
    if p.wire_bytes > s.cfg.dtx_inline_max then none else some (id, p)

/-- The bodies of the first block always fit. -/
def add_bodies (s : Node) (w : SyncWindow) (sb : StoredBlock) : SyncWindow :=
  if w.bytes < SYNC_BYTE_BUDGET then
    let this_block := s.inline_bodies sb
    let this_bytes := (this_block.map fun e => e.2.wire_bytes).sum
    if w.blocks = [] ∨ w.bytes + this_bytes ≤ SYNC_BYTE_BUDGET then
      { w with
        bytes := w.bytes + this_bytes
        payloads := this_block.foldl (fun m e => m.insert e.1 e.2) w.payloads }
    else w
  else w

def serve_block (s : Node) (want : Nat) (w : SyncWindow) (h : String) : SyncWindow :=
  if w.blocks.length ≥ want then w
  else match s.blocks_full[h]? with
    | none => w
    | some sb => { s.add_bodies w sb with blocks := w.blocks ++ [sb] }

omit [Crypto] [Serde] in
/-- Where the walk down from the head ends: at genesis, or below the height that was asked for. -/
def below_window (s : Node) (from_height : UInt64) (h : String) : Bool :=
  h = s.tree.genesis_hash || (s.tree.blocks[h]?.map (·.height)).any fun height => decide (height < from_height)

omit [Crypto] [Serde] in
/-- The head's line from a height on, lowest first. -/
def ascending (s : Node) (from_height : UInt64) : List String :=
  (walk s.tree.parent (s.below_window from_height) s.tree.walk_fuel s.tree.head).1.reverse

def serve_window (s : Node) (request : SyncRequest) : SyncWindow :=
  (s.ascending request.from_height).foldl (s.serve_block (min request.count.toNat SYNC_MAX_BLOCKS))
    { blocks := [], payloads := ∅, bytes := 0 }

def serve_sync (s : Node) (request : SyncRequest) : SyncResponse :=
  let w := s.serve_window request
  { blocks := w.blocks
    payloads := w.payloads
    head_height := s.head_height
    genesis := if request.want_genesis then s.tree.genesis_pin.filter fun g => g.length * 8 ≤ SYNC_BYTE_BUDGET else none }

end Node

end Sestrian
