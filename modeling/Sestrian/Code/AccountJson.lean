import Sestrian.Code.Proto
import Sestrian.Code.Value

/-!
# Account transactions as `serde_json` values (`account_tx_to_json`, `account_tx_from_json`)

The same two functions as in `Proto`, on every value that a peer can send: with nulls, with floats, and with fields
that nobody reads.
-/

namespace Sestrian

open serde_json (Value insert_field)

namespace serde_json.Value

def as_bool : Value → Option Bool
  | bool b => some b
  | _ => none

/-- `json!` of an object. -/
def json_object (fields : List (String × Value)) : Value :=
  object (fields.foldl (fun m f => insert_field f.1 f.2 m) [])

end serde_json.Value

namespace proto

open serde_json.Value

def account_tx_to_json : AccountTx → Value
  | .Transfer x => json_object [("kind", string "transfer"), ("from_pub", string x.from_pub),
      ("to_addr", string x.to_addr), ("amount", of_u64 x.amount), ("nonce", of_u64 x.nonce),
      ("sig", string (hex_encode x.sig))]
  | .DataSubmit x => json_object [("kind", string "data_submit"), ("owner_pub", string x.owner_pub),
      ("data_hash", string x.data_hash), ("size_bytes", of_u64 x.size_bytes), ("media_type", string x.media_type),
      ("stake", of_u64 x.stake), ("nonce", of_u64 x.nonce), ("da_root", string x.da_root),
      ("sig", string (hex_encode x.sig))]
  | .DataChallenge x => json_object [("kind", string "data_challenge"), ("challenger_pub", string x.challenger_pub),
      ("data_id", string x.data_id), ("stake", of_u64 x.stake), ("reason", string x.reason),
      ("nonce", of_u64 x.nonce), ("sig", string (hex_encode x.sig))]
  | .DataVote x => json_object [("kind", string "data_vote"), ("voter_pub", string x.voter_pub),
      ("challenge_id", string x.challenge_id), ("support", bool x.support), ("nonce", of_u64 x.nonce),
      ("sig", string (hex_encode x.sig))]
  | .InferenceReceipt x => json_object [("kind", string "inference"), ("payer_pub", string x.payer_pub),
      ("server_addr", string x.server_addr), ("fee", of_u64 x.fee), ("output_hash", string x.output_hash),
      ("head_root", string x.head_root), ("nonce", of_u64 x.nonce),
      ("answer_sketch", array (x.answer_sketch.map of_i64)), ("sig", string (hex_encode x.sig))]

def account_tx_from_json (v : Value) : Option AccountTx := do
  let sig ← hex_decode (← (v.index "sig").as_str)
  let kind ← (v.index "kind").as_str
  let text (key : String) : Option String := (v.index key).as_str
  let number (key : String) : Option UInt64 := (v.index key).as_u64
  if kind = "transfer" then
    some (.Transfer {
      from_pub := ← text "from_pub", to_addr := ← text "to_addr", amount := ← number "amount"
      nonce := ← number "nonce", sig })
  else if kind = "data_submit" then
    some (.DataSubmit {
      owner_pub := ← text "owner_pub", data_hash := ← text "data_hash", size_bytes := ← number "size_bytes"
      media_type := ← text "media_type", stake := ← number "stake", nonce := ← number "nonce"
      da_root := (text "da_root").getD "", sig })
  else if kind = "data_challenge" then
    some (.DataChallenge {
      challenger_pub := ← text "challenger_pub", data_id := ← text "data_id", stake := ← number "stake"
      reason := ← text "reason", nonce := ← number "nonce", sig })
  else if kind = "data_vote" then
    some (.DataVote {
      voter_pub := ← text "voter_pub", challenge_id := ← text "challenge_id"
      support := ← (v.index "support").as_bool, nonce := ← number "nonce", sig })
  else if kind = "inference" then
    some (.InferenceReceipt {
      payer_pub := ← text "payer_pub", server_addr := ← text "server_addr", fee := ← number "fee"
      output_hash := ← text "output_hash", head_root := ← text "head_root", nonce := ← number "nonce"
      -- entries that are no `i64` are dropped
      answer_sketch := (((v.get "answer_sketch").bind Value.as_array).map fun a => a.filterMap Value.as_i64).getD []
      sig })
  else none

end proto

end Sestrian
