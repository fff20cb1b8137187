import Sestrian.Code.Token

/-!
# The rig's ledger root (`rig/token.py`)

`json.dumps` with `sort_keys`, compact separators and the default `ensure_ascii`. The rig's dictionaries
are written in the order of the source. The rig's integers have no bound, and the values here are those of the ledger.
-/

namespace Sestrian

namespace rig

/-! ## `json.dumps` -/

def u_escape (n : Nat) : List UInt8 :=
  [92, 117, hex_digit (n / 4096 % 16), hex_digit (n / 256 % 16), hex_digit (n / 16 % 16), hex_digit (n % 16)]

/-- What is not printable ASCII goes out as `\uXXXX`, past the basic plane as two surrogates. -/
def escape (c : Char) : List UInt8 :=
  if c = '"' then [92, 34]
  else if c = '\\' then [92, 92]
  else if c = '\n' then [92, 110]
  else if c = '\r' then [92, 114]
  else if c = '\t' then [92, 116]
  else if c.toNat = 8 then [92, 98]
  else if c.toNat = 12 then [92, 102]
  else if 32 ≤ c.toNat ∧ c.toNat ≤ 126 then [UInt8.ofNat c.toNat]
  else if c.toNat < 0x10000 then u_escape c.toNat
  else u_escape (0xd800 + (c.toNat - 0x10000) / 1024) ++ u_escape (0xdc00 + (c.toNat - 0x10000) % 1024)

def quote (s : String) : List UInt8 := 34 :: s.toList.flatMap escape ++ [34]

def key_le (a b : String × List UInt8) : Prop := a.1 ≤ b.1

instance : DecidableRel key_le := fun a b => by unfold key_le; infer_instance

def field_text (f : String × List UInt8) : List UInt8 := quote f.1 ++ as_bytes ":" ++ f.2

mutual

def dumps : Json → List UInt8
  | .bool b => as_bytes (if b then "true" else "false")
  | .num n => as_bytes (toString n)
  | .str s => quote s
  | .arr items => as_bytes "[" ++ (as_bytes ",").intercalate (dumpsItems items) ++ as_bytes "]"
  | .obj fields => as_bytes "\x7b" ++
      (as_bytes ",").intercalate (((dumpsFields fields).insertionSort key_le).map field_text) ++ as_bytes "\x7d"

def dumpsItems : List Json → List (List UInt8)
  | [] => []
  | x :: rest => dumps x :: dumpsItems rest

def dumpsFields : List (String × Json) → List (String × List UInt8)
  | [] => []
  | (k, v) :: rest => (k, dumps v) :: dumpsFields rest

end

/-! ## The ledger's dictionaries -/

open TokenLedger

def entry_dict (e : RegistryEntry) : Json :=
  .obj ([("owner", .str e.owner), ("data_hash", .str e.data_hash), ("size", u64_json e.size),
      ("media_type", .str e.media_type), ("stake", u64_json e.stake)] ++
    (e.da_root.map fun r => ("da_root", Json.str r)).toList ++
    [("weight", u64_json e.weight), ("status", .str (match e.status with | .active => "active" | .revoked => "revoked"))] ++
    (e.sketch.map fun sk => ("sketch", Json.arr (sk.map fun x => .num x.toInt))).toList)

def challenge_dict (c : Challenge) : Json :=
  .obj [("data_id", .str c.data_id), ("challenger", .str c.challenger), ("stake", u64_json c.stake), ("reason", .str c.reason),
    ("expiry", u64_json c.expiry), ("votes_for", .arr (c.votes_for.map .str)), ("votes_against", .arr (c.votes_against.map .str))]

def bond_dict (b : Bond) : Json :=
  .obj [("miner", .str b.miner), ("amount", u64_json b.amount), ("expiry", u64_json b.expiry)]

def root_bytes (led : TokenLedger) : List UInt8 :=
  dumps (.obj [("balances", dict_json u64_json led.balances), ("bonds", dict_json bond_dict led.bonds),
    ("challenges", dict_json challenge_dict led.challenges), ("fee_data_pool", u64_json led.fee_data_pool),
    ("fee_train_pool", u64_json led.fee_train_pool), ("nonces", dict_json u64_json led.nonces),
    ("registry", dict_json entry_dict led.registry)])

end rig

end Sestrian
