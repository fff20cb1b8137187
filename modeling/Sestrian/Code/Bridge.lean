import Sestrian.Code.BlockTree

/-!
# The trainer bridge (`bridge.rs`, `node.rs` and `client/miner_bridge.py`)

The node sends the trainer its head state once and then the difference of each block, through
a channel that drops what does not fit. What the trainer trains and evaluates on is its own copy.
The payloads of the requests are left out: they touch neither copy.
-/

namespace Sestrian.bridge

/-- The messages to the trainer. Sparse vectors carry their dimension once. -/
inductive ToBridge where
  | State (height : UInt64) (state : List Int64) (experts_per_layer : List UInt64)
  | Advance (height : UInt64) (dim : Nat) (sparse : List (UInt32 × Int64))
  | Grow (height : UInt64) (new_dim : Nat) (layer : Int) (init : List Int64)
  | Train (height : UInt64)
  | Eval (height : UInt64)
  | Generate

/-- `mpsc::channel(16)`. -/
def CAPACITY : Nat := 16

/-- A full channel drops the message. -/
def try_send (chan : List ToBridge) (m : ToBridge) : Bool × List ToBridge :=
  if chan.length < CAPACITY then (true, chan ++ [m]) else (false, chan)

/-! ## The node -/

/-- The expert pages of each layer. -/
def expert_counts (n_layers : UInt64) (pages : List Page) : List UInt64 :=
  pages.foldl (fun epl p => if p.kind = .expert ∧ 0 ≤ p.layer then epl.modify p.layer.toNat (· + 1) else epl)
    (List.replicate n_layers.toNat 0)

/-- The pages of the head's model. -/
def head_pages (t : BlockTree) : List Page := (t.model[t.head]?.map (·.pages)).getD []

def head_height (t : BlockTree) : UInt64 := (t.blocks[t.head]?.map (·.height)).getD 0

/-- What `send_bridge_state` sends. -/
def full_state (t : BlockTree) : ToBridge :=
  .State (head_height t) t.head_state (expert_counts t.params.spec.n_layers (head_pages t))

/-- What `on_head_advance` sends, in order. -/
def head_messages (t : BlockTree) (old_head : String) : List ToBridge :=
  let sequential := (t.blocks[t.head]?.map fun hh => decide (hh.prev_hash = old_head)).getD false
  -- `applied_delta` and `appended_tail`
  let applied := t.redo[t.head]?
  let tail := (t.undo[t.head]?.map (·.2)).getD []
  let new_len := t.head_state.length
  match sequential, applied with
  | true, some coords =>
    if tail.isEmpty then [.Advance (head_height t) new_len coords]
    else
      let old_len := new_len - tail.length
      match (head_pages t).getLast? with
      | some page =>
        if page.stop - page.start = tail.length then
          [.Advance (head_height t) old_len coords, .Grow (head_height t) new_len page.layer tail]
        else [full_state t]
      | none => [full_state t]
  | _, _ => [full_state t]

/-! ## The trainer -/

/-- The shape of the model that the trainer has built, by its experts per layer. -/
structure Trainer where
  model : Option (List UInt64)
  state : Option (List Int64)
  height : Int

/-- `sparse_dense`: a place past the end is an `IndexError`. -/
def sparse_dense (n : Nat) (sparse : List (UInt32 × Int64)) : Option (List Int64) :=
  if sparse.all fun c => c.1.toNat < n then
    some (sparse.foldl (fun out c => out.set c.1.toNat c.2) (List.replicate n 0))
  else none

section Loop

-- `layout_n` is the size of the chain layout of a model, and `none` for a dense preset.
variable (layout_n : List UInt64 → Option Nat)

/-- A process that has not connected. -/
def Trainer.new : Trainer := { model := none, state := none, height := -1 }

/-- A new connection: the model outlives it, the state does not. -/
def Trainer.reconnect (tr : Trainer) : Trainer := { tr with state := none, height := -1 }

/-- The shape after a state message: a model with a layout is rebuilt for the node's counts. -/
def Trainer.rebuilt (tr : Trainer) (epl : List UInt64) : List UInt64 :=
  match tr.model with
  | none => epl
  | some m => if (layout_n m).isSome then epl else m

/-- The `state` branch. A state of another size is refused. -/
def Trainer.take_state (tr : Trainer) (height : UInt64) (state : List Int64) (epl : List UInt64) : Trainer × Bool :=
  let model := tr.rebuilt layout_n epl
  if (layout_n model).any (· ≠ state.length) then
    ({ model := some model, state := none, height := height.toNat }, true)
  else ({ model := some model, state := some state, height := height.toNat }, false)

/-- The `advance` branch, `none` when it raises. -/
def Trainer.advance (tr : Trainer) (height : UInt64) (dim : Nat) (sparse : List (UInt32 × Int64)) :
    Option (Trainer × Bool) :=
  match tr.state with
  | none => some (tr, true)
  | some w =>
    if dim ≠ w.length then some (tr, true)
    else (sparse_dense dim sparse).map fun d =>
      ({ tr with state := some (List.zipWith (· + ·) w d), height := height.toNat }, false)

/-- One more expert in a layer. -/
def add_expert (epl : List UInt64) (layer : Int) : List UInt64 := epl.modify layer.toNat (· + 1)

/-- The `grow` branch. -/
def Trainer.grow (tr : Trainer) (height : UInt64) (new_dim : Nat) (layer : Int) (page : List Int64) : Trainer × Bool :=
  match tr.state, tr.model with
  | some w, some m =>
    if (layout_n m).isNone then (tr, true)
    else
      let model := add_expert m layer
      let state := w ++ page
      if state.length ≠ new_dim ∨ layout_n model ≠ some state.length then
        ({ model := some model, state := none, height := height.toNat }, true)
      else ({ model := some model, state := some state, height := height.toNat }, false)
  | _, _ => (tr, true)

/-- One round of the message loop: the trainer after it, and whether it asked for a full state. Before the
first state everything else is ignored. -/
def Trainer.receive (tr : Trainer) (m : ToBridge) : Option (Trainer × Bool) :=
  match m with
  | .State height state epl => some (tr.take_state layout_n height state epl)
  | .Advance height dim sparse => if tr.model.isNone then some (tr, false) else tr.advance height dim sparse
  | .Grow height new_dim layer page =>
    some (if tr.model.isNone then (tr, false) else tr.grow layout_n height new_dim layer page)
  | .Train height => some (tr, tr.model.isSome && (tr.state.isNone || decide ((height.toNat : Int) ≠ tr.height)))
  | .Eval _ => some (tr, false)
  | .Generate => some (tr, false)

/-- The state that a request runs on, when it runs. -/
def Trainer.runs_on (tr : Trainer) (m : ToBridge) : Option (List Int64) :=
  match m with
  | .Train height => if (height.toNat : Int) = tr.height then tr.state else none
  | .Eval height => if (height.toNat : Int) = tr.height then tr.state else none
  | _ => none

end Loop

end Sestrian.bridge
