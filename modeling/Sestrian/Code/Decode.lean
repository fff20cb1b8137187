import Sestrian.Code.Proto
import Sestrian.Lib.Panic

/-!
# Decoding payloads (`proto.rs`, `decompress` of `lib.rs`)

The three decoders of a payload read the same two strings and check different things. A run that returns `None` is
rejected. Slices and indices out of range panic, and so does a vector of more than `isize::MAX` bytes.
-/

open Panic

namespace Sestrian

/-- A run that returns `None` or panics. -/
abbrev MayPanic := Except (Stop Unit)

/-- `?` on an `Option`. -/
def or_none {α : Type} (o : Option α) : MayPanic α :=
  match o with
  | some a => .ok a
  | none => .error (.reject ())

/-- `vec![0i64; n]`. -/
def alloc (n : Nat) : MayPanic Unit := if n * 8 < 2 ^ 63 then .ok () else .error .panic

namespace DenseBody

theorem zeros_addressable (n i : Nat) (hi : (List.replicate n (0 : Int64)).getD i 0 ≠ 0) : i < 2 ^ 32 := by
  refine absurd ?_ hi
  rw [List.getD_eq_getElem?_getD, List.getElem?_replicate]
  split <;> rfl

def zeros (n : Nat) : DenseBody := { vals := List.replicate n 0, addressable := zeros_addressable n }

theorem write_addressable (b : DenseBody) (i : UInt32) (v : Int64) (j : Nat)
    (hj : (b.vals.set i.toNat v).getD j 0 ≠ 0) : j < 2 ^ 32 := by
  by_cases hi : i.toNat = j
  · exact hi ▸ i.toNat_lt
  · refine b.addressable j ?_
    rwa [List.getD_eq_getElem?_getD, List.getElem?_set_ne hi, ← List.getD_eq_getElem?_getD] at hj

/-- `out[idx] = val`. -/
def write (b : DenseBody) (i : UInt32) (v : Int64) : Option DenseBody :=
  if i.toNat < b.vals.length then some { vals := b.vals.set i.toNat v, addressable := b.write_addressable i v } else none

end DenseBody

def word_value (w : UInt32) : Int64 := w.toInt32.toInt64

def decompress (n : Nat) (idx_bytes val_bytes : List UInt8) : MayPanic DenseBody := do
  alloc n
  if val_bytes.length / 4 ≠ idx_bytes.length / 4 then .error .panic
  else
    (List.range (idx_bytes.length / 4)).foldlM (fun out i => do
      let idx ← unwrap (words idx_bytes)[i]?
      let val ← unwrap (words val_bytes)[i]?
      unwrap (out.write idx (word_value val))) (DenseBody.zeros n)

namespace Payload

def dense (p : Payload) : MayPanic DenseBody := do
  let idx ← or_none (unb64 p.idx)
  let val ← or_none (unb64 p.val)
  decompress p.n idx val

/-- `dense_range` with its slices checked. -/
def run_dense_range (p : Payload) (lo hi : Nat) : MayPanic (List Int64) := do
  alloc (hi - lo)
  match unb64 p.idx, unb64 p.val with
  | some idx, some val =>
    (List.range (idx.length / 4)).foldlM (fun out i => do
      let j ← unwrap (words idx)[i]?
      if lo ≤ j.toNat ∧ j.toNat < hi then
        let v ← unwrap (words val)[i]?
        unwrap (if j.toNat - lo < out.length then some (out.set (j.toNat - lo) (word_value v)) else none)
      else pure out) (List.replicate (hi - lo) 0)
  | _, _ => pure (List.replicate (hi - lo) 0)

/-- `coords` with its slices checked. -/
def run_coords (p : Payload) : MayPanic (List (UInt32 × Int64)) := do
  let idx ← or_none (unb64 p.idx)
  let val ← or_none (unb64 p.val)
  if idx.length / 4 ≠ val.length / 4 then .error (.reject ())
  else
    let m ← (List.range (idx.length / 4)).foldlM (fun m i => do
      let ix ← unwrap (words idx)[i]?
      if ix.toNat ≥ p.n then .error (.reject ())
      else
        let v ← unwrap (words val)[i]?
        pure (m.insert ix (word_value v))) (∅ : Std.ExtTreeMap UInt32 Int64 compare)
    pure (m.toList.filter fun c => c.2 ≠ 0)

end Payload

namespace StoredBlock

variable [Crypto]

/-- One transaction of a stored block and its dense body. -/
def densify_tx (payloads : Dict Payload) (acc : List BackpropTx × Dict DenseBody) (wt : WireDeltaTx) :
    MayPanic (List BackpropTx × Dict DenseBody) := do
  let t ← or_none wt.to_core
  let p ← or_none payloads[t.txid]?
  let body ← p.dense
  pure (acc.1 ++ [t], acc.2.insert t.da_pointer body)

/-- The block that a restart replays, with dense bodies. -/
def to_core (sb : StoredBlock) (payloads : Dict Payload) : MayPanic Block := do
  let acc ← sb.txs.foldlM (densify_tx payloads) ([], ∅)
  let transfers ← or_none (sb.transfers.mapM as_transfer)
  let data_txs ← or_none (sb.data_txs.mapM account_tx_from_json)
  pure {
    header := sb.header, txs := acc.1, bodies := acc.2, sparse := ∅, transfers, data_txs
    scores := sb.scores, sketches := sb.sketches
    witness_leaves := sb.page_leaves.map witness_leaf }

end StoredBlock

end Sestrian
