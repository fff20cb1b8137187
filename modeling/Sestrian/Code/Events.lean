import Sestrian.Code.Produce

/-!
# What else reaches the node (`node.rs`)

The trainer's own deltas, the account transactions of the API and the fraud proofs. With the
messages of `Msg` these are all the events that touch the mempools.
-/

namespace Sestrian

/-- A hash map yields each of its keys once. -/
def Env.Fair (env : Env) : Prop := ∀ ks, (env.order ks).Perm ks

namespace Node

variable [Crypto] [Serde]

/-- An account transaction of the API is submitted as it is, or built around an upload. The
verdict on a fraud proof comes with the header that it accuses. -/
inductive Event where
  | chain (m : Msg)
  | Delta (height : UInt64) (pages : List UInt32) (data_refs : List String) (payload : Payload)
  | Account (t : AccountTx)
  | Fraud (verdict : Option (Bool × String)) (header : Option Header)

/-- The transaction around a trained delta. `data_refs` is the option of that name. -/
def own_delta (s : Node) (height : UInt64) (pages : List UInt32) (data_refs : List String) (payload : Payload) :
    BackpropTx :=
  let dh := (payload.coords.map (delta_hash_sparse payload.n)).getD ""
  let tx : BackpropTx := {
    miner := s.key.pub_hex, base_height := height, delta_hash := dh, da_pointer := "da://" ++ dh, bond := 0
    pages := (pages.insertionSort (· ≤ ·)).dedup, data_refs, sig := [] }
  { tx with sig := s.key.sign tx.signing_bytes }

def handle_delta (env : Env) (s : Node) (height : UInt64) (pages : List UInt32) (data_refs : List String)
    (payload : Payload) : Node :=
  if !delta_in_window height s.head_height then s
  else (s.accept_delta env (s.own_delta height pages data_refs payload) payload).2

def on_fraud_proof (env : Env) (s : Node) (verdict : Option (Bool × String)) (header : Option Header) : Node :=
  match verdict, header with
  | some (true, _), some h =>
    if s.tree.convicted.contains h.block_hash then s
    else match s.tree.convict h.block_hash with
      | (true, tree) => ({ s with tree }).on_head_advance env
      | (false, tree) => { s with tree }
  | _, _ => s

/-- One event. -/
def meet (s : Node) (e : Env × Event) : Node :=
  match e.2 with
  | .chain m => s.handle (e.1, m)
  | .Delta height pages data_refs payload => s.handle_delta e.1 height pages data_refs payload
  | .Account t => (s.accept_account_tx e.1 t).2
  | .Fraud verdict header => s.on_fraud_proof e.1 verdict header

def live (s : Node) (es : List (Env × Event)) : Node := es.foldl meet s

end Node

end Sestrian
