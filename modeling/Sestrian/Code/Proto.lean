import Sestrian.Code.Validate

/-!
# What travels and what is stored (`proto.rs`)

`WireHeader` has the fields of `Header` and both casts copy them, so a stored block holds a
`Header`.
-/

namespace Sestrian

/-! ## Base64, with the standard alphabet and canonical padding -/

def b64_val (c : UInt8) : Option Nat :=
  if 65 ≤ c ∧ c ≤ 90 then some (c.toNat - 65)
  else if 97 ≤ c ∧ c ≤ 122 then some (c.toNat - 71)
  else if 48 ≤ c ∧ c ≤ 57 then some (c.toNat + 4)
  else if c = 43 then some 62
  else if c = 47 then some 63
  else none

/-- Only the last group may be padded, and the bits it drops must be zero. -/
def unb64_bytes : List UInt8 → Option (List UInt8)
  | [] => some []
  | a :: b :: c :: d :: rest => do
    let x := (← b64_val a) * 64 + (← b64_val b)
    if rest = [] ∧ c = 61 ∧ d = 61 then
      if x % 16 = 0 then some [UInt8.ofNat (x / 16)] else none
    else
      let y := x * 64 + (← b64_val c)
      if rest = [] ∧ d = 61 then
        if y % 4 = 0 then some [UInt8.ofNat (y / 1024), UInt8.ofNat (y / 4)] else none
      else
        let z := y * 64 + (← b64_val d)
        some ([UInt8.ofNat (z / 65536), UInt8.ofNat (z / 256), UInt8.ofNat z] ++ (← unb64_bytes rest))
  | _ => none

def unb64 (s : String) : Option (List UInt8) := unb64_bytes (as_bytes s)

/-! ## Payloads -/

structure Payload where
  n : Nat
  idx : String
  val : String
  deriving DecidableEq, Inhabited

def le_value (b : List UInt8) : Nat := b.foldr (fun x acc => x.toNat + 256 * acc) 0

/-- The whole words of four bytes. A shorter rest is left out. -/
def words : List UInt8 → List UInt32
  | a :: b :: c :: d :: rest => UInt32.ofNat (le_value [a, b, c, d]) :: words rest
  | _ => []

namespace Payload

/-- The stated coordinates, in the order they are written. -/
def entries (idx val : List UInt8) : List (UInt32 × Int64) :=
  (words idx).zip ((words val).map fun w => w.toInt32.toInt64)

/-- The last value of a coordinate counts. -/
def last_writes (cs : List (UInt32 × Int64)) : Std.ExtTreeMap UInt32 Int64 compare :=
  cs.foldl (fun m c => m.insert c.1 c.2) ∅

def coords (p : Payload) : Option (List (UInt32 × Int64)) := do
  let idx ← unb64 p.idx
  let val ← unb64 p.val
  if idx.length / 4 ≠ val.length / 4 then none
  else if (entries idx val).all fun c => c.1.toNat < p.n then
    some ((last_writes (entries idx val)).toList.filter fun c => c.2 ≠ 0)
  else none

def dense_range (p : Payload) (lo hi : Nat) : List Int64 :=
  match unb64 p.idx, unb64 p.val with
  | some idx, some val =>
    ((entries idx val).filter fun c => lo ≤ c.1.toNat ∧ c.1.toNat < hi).foldl
      (fun out c => out.set (c.1.toNat - lo) c.2) (List.replicate (hi - lo) 0)
  | _, _ => List.replicate (hi - lo) 0

def wire_bytes (p : Payload) : Nat := p.idx.utf8ByteSize * 3 / 4 + p.val.utf8ByteSize * 3 / 4

theorem mem_last_writes {cs : List (UInt32 × Int64)} {i : UInt32} (h : i ∈ last_writes cs) :
    ∃ c ∈ cs, c.1 = i := by
  have key : ∀ (l : List (UInt32 × Int64)) (m : Std.ExtTreeMap UInt32 Int64 compare),
      i ∈ l.foldl (fun m c => m.insert c.1 c.2) m → i ∈ m ∨ ∃ c ∈ l, c.1 = i := by
    intro l
    induction l with
    | nil => exact fun m hm => .inl hm
    | cons c l ih =>
      intro m hm
      rcases ih _ hm with h | ⟨c', hc', rfl⟩
      · rcases Std.ExtTreeMap.mem_insert.mp h with h | h
        · exact .inr ⟨c, by simp, Std.compare_eq_iff_eq.mp h⟩
        · exact .inl h
      · exact .inr ⟨c', by simp [hc'], rfl⟩
  simpa using key cs ∅ h

theorem coords_spec {p : Payload} {coords : List (UInt32 × Int64)} (h : p.coords = some coords) :
    ∃ idx val, (∀ c ∈ entries idx val, c.1.toNat < p.n) ∧
      coords = (last_writes (entries idx val)).toList.filter fun c => c.2 ≠ 0 := by
  simp only [Payload.coords, Option.bind_eq_bind, Option.bind_eq_some_iff] at h
  obtain ⟨idx, -, val, -, h⟩ := h
  split at h
  · cases h
  · split at h
    · rename_i hall
      exact ⟨idx, val, by simpa using hall, (Option.some.inj h).symm⟩
    · cases h

theorem coords_sorted {p : Payload} {coords : List (UInt32 × Int64)} (h : p.coords = some coords) :
    coords.Pairwise fun a b => a.1 < b.1 := by
  obtain ⟨idx, val, -, rfl⟩ := coords_spec h
  exact List.Pairwise.filter _ (Std.ExtTreeMap.ordered_keys_toList.imp fun h => Std.compare_eq_lt.mp h)

theorem coords_nonzero {p : Payload} {coords : List (UInt32 × Int64)} (h : p.coords = some coords) :
    ∀ c ∈ coords, c.2 ≠ 0 := by
  obtain ⟨idx, val, -, rfl⟩ := coords_spec h
  intro c hc
  simpa using (List.mem_filter.mp hc).2

theorem coords_in_range {p : Payload} {coords : List (UInt32 × Int64)} (h : p.coords = some coords) :
    ∀ c ∈ coords, c.1.toNat < p.n := by
  obtain ⟨idx, val, hlt, rfl⟩ := coords_spec h
  intro c hc
  have hmem : c.1 ∈ last_writes (entries idx val) :=
    Std.ExtTreeMap.mem_iff_isSome_getElem?.mpr (by
      rw [Std.ExtTreeMap.mem_toList_iff_getElem?_eq_some.mp (List.mem_filter.mp hc).1]; rfl)
  obtain ⟨c', hc', heq⟩ := mem_last_writes hmem
  exact heq ▸ hlt c' hc'

/-- The coordinates of a payload are a sparse body. -/
def body (p : Payload) : Option SparseBody :=
  match h : p.coords with
  | none => none
  | some coords => some {
      n := p.n
      coords
      sorted := coords_sorted h
      nonzero := coords_nonzero h
      in_range := coords_in_range h }

theorem body_eq_some {p : Payload} {b : SparseBody} (h : p.body = some b) : b.n = p.n ∧ p.coords = some b.coords := by
  unfold body at h
  split at h
  · cases h
  · rename_i coords hc
    obtain rfl := Option.some.inj h
    exact ⟨rfl, hc⟩

end Payload

/-! ## Transactions -/

structure WireDeltaTx where
  miner : String
  base_height : UInt64
  delta_hash : String
  da_pointer : String
  bond : UInt64
  pages : List UInt32
  data_refs : List String
  sig : String

def WireDeltaTx.to_core (t : WireDeltaTx) : Option BackpropTx := do
  let sig ← hex_decode t.sig
  some { t with sig }

def WireDeltaTx.from_core (t : BackpropTx) : WireDeltaTx := { t with sig := hex_encode t.sig }

namespace Json

/-- `v[key]` of an object, `null` elsewhere. -/
def get (v : Json) (key : String) : Option Json :=
  match v with
  | obj fields => fields.lookup key
  | _ => none

def as_str : Option Json → Option String
  | some (str s) => some s
  | _ => none

def as_bool : Option Json → Option Bool
  | some (bool b) => some b
  | _ => none

def as_u64 : Option Json → Option UInt64
  | some (num n) => if 0 ≤ n ∧ n < 2 ^ 64 then some (UInt64.ofNat n.toNat) else none
  | _ => none

def as_i64 : Json → Option Int64
  | num n => if -2 ^ 63 ≤ n ∧ n < 2 ^ 63 then some (Int64.ofInt n) else none
  | _ => none

def items : Option Json → List Json
  | some (arr xs) => xs
  | _ => []

end Json

section Account

open Json

def account_tx_to_json : AccountTx → Json
  | .Transfer x => obj [("kind", str "transfer"), ("from_pub", str x.from_pub), ("to_addr", str x.to_addr),
      ("amount", num x.amount.toNat), ("nonce", num x.nonce.toNat), ("sig", str (hex_encode x.sig))]
  | .DataSubmit x => obj [("kind", str "data_submit"), ("owner_pub", str x.owner_pub),
      ("data_hash", str x.data_hash), ("size_bytes", num x.size_bytes.toNat), ("media_type", str x.media_type),
      ("stake", num x.stake.toNat), ("nonce", num x.nonce.toNat), ("da_root", str x.da_root),
      ("sig", str (hex_encode x.sig))]
  | .DataChallenge x => obj [("kind", str "data_challenge"), ("challenger_pub", str x.challenger_pub),
      ("data_id", str x.data_id), ("stake", num x.stake.toNat), ("reason", str x.reason),
      ("nonce", num x.nonce.toNat), ("sig", str (hex_encode x.sig))]
  | .DataVote x => obj [("kind", str "data_vote"), ("voter_pub", str x.voter_pub),
      ("challenge_id", str x.challenge_id), ("support", bool x.support), ("nonce", num x.nonce.toNat),
      ("sig", str (hex_encode x.sig))]
  | .InferenceReceipt x => obj [("kind", str "inference"), ("payer_pub", str x.payer_pub),
      ("server_addr", str x.server_addr), ("fee", num x.fee.toNat), ("output_hash", str x.output_hash),
      ("head_root", str x.head_root), ("nonce", num x.nonce.toNat),
      ("answer_sketch", arr (x.answer_sketch.map fun a => num a.toInt)), ("sig", str (hex_encode x.sig))]

def account_tx_from_json (v : Json) : Option AccountTx := do
  let sig ← hex_decode (← as_str (v.get "sig"))
  let kind ← as_str (v.get "kind")
  let text (key : String) : Option String := as_str (v.get key)
  let number (key : String) : Option UInt64 := as_u64 (v.get key)
  if kind = "transfer" then
    some (.Transfer {
      from_pub := ← text "from_pub", to_addr := ← text "to_addr", amount := ← number "amount"
      nonce := ← number "nonce", sig })
  else if kind = "data_submit" then
    -- a missing `da_root` decodes to the empty text, and the ledger rejects it
    some (.DataSubmit {
      owner_pub := ← text "owner_pub", data_hash := ← text "data_hash", size_bytes := ← number "size_bytes"
      media_type := ← text "media_type", stake := ← number "stake", nonce := ← number "nonce"
      da_root := (text "da_root").getD "", sig })
  else if kind = "data_challenge" then
    some (.DataChallenge {
      challenger_pub := ← text "challenger_pub", data_id := ← text "data_id", stake := ← number "stake"
      reason := ← text "reason", nonce := ← number "nonce", sig })
  else if kind = "data_vote" then
    some (.DataVote {
      voter_pub := ← text "voter_pub", challenge_id := ← text "challenge_id"
      support := ← as_bool (v.get "support"), nonce := ← number "nonce", sig })
  else if kind = "inference" then
    some (.InferenceReceipt {
      payer_pub := ← text "payer_pub", server_addr := ← text "server_addr", fee := ← number "fee"
      output_hash := ← text "output_hash", head_root := ← text "head_root", nonce := ← number "nonce"
      answer_sketch := (items (v.get "answer_sketch")).filterMap as_i64, sig })
  else none

end Account

/-! ## Stored blocks -/

/-- A block without its bodies: what is gossiped, stored and synced. -/
structure StoredBlock where
  header : Header
  txs : List WireDeltaTx
  transfers : List Json
  data_txs : List Json
  scores : Dict UInt64
  sketches : Dict (List Int32)
  page_leaves : List String

namespace StoredBlock

variable [Crypto]

def hash (sb : StoredBlock) : String := sb.header.block_hash

/-- Bad hex gives a zero leaf. -/
def witness_leaf (h : String) : Hash :=
  match hex_decode h with
  | some b => if hb : b.length = 32 then ⟨b, hb⟩ else zero_hash
  | none => zero_hash

/-- A transfer of the transfer lane. -/
def as_transfer (v : Json) : Option TransferTx :=
  match account_tx_from_json v with
  | some (.Transfer t) => some t
  | _ => none

def insert_body (payloads : Dict Payload) (sparse : Dict SparseBody) (t : BackpropTx) : Option (Dict SparseBody) := do
  let p ← payloads[t.txid]?
  some (sparse.insert t.da_pointer (← p.body))

def to_core_sparse (sb : StoredBlock) (payloads : Dict Payload) : Option Block := do
  let txs ← sb.txs.mapM WireDeltaTx.to_core
  let transfers ← sb.transfers.mapM as_transfer
  let data_txs ← sb.data_txs.mapM account_tx_from_json
  let sparse ← txs.foldlM (insert_body payloads) ∅
  some {
    header := sb.header, txs, bodies := ∅, sparse, transfers, data_txs
    scores := sb.scores, sketches := sb.sketches
    witness_leaves := sb.page_leaves.map witness_leaf }

/-- The deltas whose signature is hex, as the node reads them. -/
def deltas (sb : StoredBlock) : List BackpropTx := sb.txs.filterMap WireDeltaTx.to_core

def txids (sb : StoredBlock) : List String := sb.deltas.map (·.txid)

def account_txs (sb : StoredBlock) : List AccountTx := (sb.transfers ++ sb.data_txs).filterMap account_tx_from_json

end StoredBlock

end Sestrian
