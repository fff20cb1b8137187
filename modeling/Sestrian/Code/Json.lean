import Sestrian.Code.Crypto

/-!
# JSON values and the bytes of their compact text (`serde_json::to_string`)

Objects list their keys in order, as the `BTreeMap` behind a `serde_json` map does. Every text
is hashed as its bytes, and `serde_json` escapes byte by byte too.
-/

namespace Sestrian

inductive Json where
  | bool (b : Bool)
  | num (n : Int)
  | str (s : String)
  | arr (items : List Json)
  | obj (fields : List (String × Json))
  deriving Inhabited

namespace Json

def escape (c : UInt8) : List UInt8 :=
  if c = 34 then [92, 34] -- quotation mark
  else if c = 92 then [92, 92] -- backslash
  else if c = 10 then [92, 110]
  else if c = 13 then [92, 114]
  else if c = 9 then [92, 116]
  else if c = 8 then [92, 98]
  else if c = 12 then [92, 102]
  else if c < 32 then [92, 117, 48, 48, hex_digit (c.toNat / 16), hex_digit (c.toNat % 16)]
  else [c]

def quote (s : String) : List UInt8 := 34 :: (as_bytes s).flatMap escape ++ [34]

mutual

def compact : Json → List UInt8
  | bool b => as_bytes (if b then "true" else "false")
  | num n => as_bytes (toString n)
  | str s => quote s
  | arr items => as_bytes "[" ++ compactItems items ++ as_bytes "]"
  | obj fields => as_bytes "\x7b" ++ compactFields fields ++ as_bytes "\x7d"

def compactItems : List Json → List UInt8
  | [] => []
  | [x] => compact x
  | x :: y :: rest => compact x ++ as_bytes "," ++ compactItems (y :: rest)

def compactFields : List (String × Json) → List UInt8
  | [] => []
  | [(k, v)] => quote k ++ as_bytes ":" ++ compact v
  | (k, v) :: f :: rest => quote k ++ as_bytes ":" ++ compact v ++ as_bytes "," ++ compactFields (f :: rest)

end

end Json

end Sestrian
