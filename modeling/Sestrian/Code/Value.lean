import Sestrian.Code.Crypto

/-!
# `serde_json::Value`

What the ledger uses of it. A map is a list of its fields in key order.
-/

namespace Sestrian

namespace serde_json

/-- `u64` from zero on, `i64` below it, and the bits of an `f64`. -/
inductive Number where
  | pos_int (n : UInt64)
  | neg_int (i : Int64)
  | float (bits : UInt64)
  deriving DecidableEq

inductive Value where
  | null
  | bool (b : Bool)
  | number (n : Number)
  | string (s : String)
  | array (items : List Value)
  | object (fields : List (String × Value))

/-! ## Maps -/

def field (k : String) : List (String × Value) → Option Value
  | [] => none
  | (k', v) :: rest => if k' = k then some v else field k rest

def insert_field (k : String) (v : Value) : List (String × Value) → List (String × Value)
  | [] => [(k, v)]
  | (k', v') :: rest =>
    if k = k' then (k, v) :: rest
    else if k < k' then (k, v) :: (k', v') :: rest
    else (k', v') :: insert_field k v rest

namespace Value

/-! ## Readers -/

def as_u64 : Value → Option UInt64
  | number (.pos_int n) => some n
  | _ => none

def as_i64 : Value → Option Int64
  | number (.pos_int n) => if n.toNat < 2 ^ 63 then some (Int64.ofNat n.toNat) else none
  | number (.neg_int i) => some i
  | _ => none

def as_str : Value → Option String
  | string s => some s
  | _ => none

def as_array : Value → Option (List Value)
  | array items => some items
  | _ => none

def as_object : Value → Option (List (String × Value))
  | object fields => some fields
  | _ => none

def is_u64 (v : Value) : Bool := v.as_u64.isSome

def is_string (v : Value) : Bool := v.as_str.isSome

/-- A comparison with a string literal or a `&str`. -/
def eq_str (v : Value) (s : String) : Bool := v.as_str = some s

def get (v : Value) (k : String) : Option Value :=
  match v with
  | object fields => field k fields
  | _ => none

/-- `v[k]`, which is null where there is no such field. -/
def index (v : Value) (k : String) : Value := (v.get k).getD null

/-- `v[k] = w`, which panics on what is neither an object nor null. -/
def set (v : Value) (k : String) (w : Value) : Option Value :=
  match v with
  | object fields => some (object (insert_field k w fields))
  | null => some (object [(k, w)])
  | _ => none

/-! ## `json!` -/

def of_u64 (n : UInt64) : Value := number (.pos_int n)

def of_i64 (i : Int64) : Value := if i < 0 then number (.neg_int i) else number (.pos_int (UInt64.ofNat i.toInt.toNat))

def of_dict {ν : Type} (f : ν → Value) (m : Dict ν) : Value := object (m.toList.map fun e => (e.1, f e.2))

end Value

end serde_json

end Sestrian
