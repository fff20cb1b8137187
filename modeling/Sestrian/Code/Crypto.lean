import Mathlib

/-!
# Bytes, hex and signatures (`lib.rs`, `token.rs`)

The `sha2` and `ed25519-dalek` crates are not part of the repository. They enter
as the two functions of `Crypto`, and everything above them is computed.
-/

namespace Sestrian

-- A test over the members of a list runs along the list, also where the type is finite.
instance (priority := 1100) decidable_forall_mem {α : Type} (p : α → Prop) [DecidablePred p] (l : List α) :
    Decidable (∀ x ∈ l, p x) := List.decidableBAll p l

/-- `BTreeMap<String, ν>`, and a `HashMap` whose order is never read. -/
abbrev Dict (ν : Type) := Std.ExtTreeMap String ν compare

/-- `BTreeSet<String>` and `HashSet<String>`. -/
abbrev StrSet := Std.ExtTreeSet String compare

/-- The Rust array `[u8; n]`. -/
abbrev ByteArr (n : Nat) := { b : List UInt8 // b.length = n }

class Crypto where
  sha256 : List UInt8 → ByteArr 32
  /-- `VerifyingKey::from_bytes`, then `verify`: false when either fails. -/
  ed25519_verify : ByteArr 32 → List UInt8 → ByteArr 64 → Bool

export Crypto (sha256 ed25519_verify)

variable [Crypto]

/-! ## Bytes -/

def as_bytes (s : String) : List UInt8 := s.toUTF8.data.toList

/-- `to_be_bytes` and `to_le_bytes` of an integer of `n` bytes. -/
def be_bytes (n x : Nat) : List UInt8 :=
  (List.range n).map fun i => UInt8.ofNat (x >>> (8 * (n - 1 - i)))

def le_bytes (n x : Nat) : List UInt8 :=
  (List.range n).map fun i => UInt8.ofNat (x >>> (8 * i))

/-- `u64::from_be_bytes`, for any number of bytes. -/
def from_be_bytes (b : List UInt8) : Nat := b.foldl (fun acc x => acc * 256 + x.toNat) 0

/-- The slice `l[s..e]`. -/
def slice {α : Type} (l : List α) (s e : Nat) : List α := (l.drop s).take (e - s)

def u64_max : UInt64 := 0xFFFFFFFFFFFFFFFF

def saturating_add (a b : UInt64) : UInt64 :=
  if a.toNat + b.toNat < 2 ^ 64 then a + b else u64_max

/-! ## Hex (the `hex` crate) -/

def hex_digit (d : Nat) : UInt8 := UInt8.ofNat (if d < 10 then 48 + d else 87 + d)

def hex_encode (b : List UInt8) : String :=
  String.ofList (b.flatMap fun x =>
    [Char.ofUInt8 (hex_digit (x.toNat / 16)), Char.ofUInt8 (hex_digit (x.toNat % 16))])

def hex_val (c : UInt8) : Option Nat :=
  if 48 ≤ c ∧ c ≤ 57 then some (c.toNat - 48)
  else if 97 ≤ c ∧ c ≤ 102 then some (c.toNat - 97 + 10)
  else if 65 ≤ c ∧ c ≤ 70 then some (c.toNat - 65 + 10)
  else none

def hex_pairs : List UInt8 → Option (List UInt8)
  | [] => some []
  | [_] => none
  | a :: b :: rest => do
    let hi ← hex_val a
    let lo ← hex_val b
    let tail ← hex_pairs rest
    some (UInt8.ofNat (hi * 16 + lo) :: tail)

/-- Both letter cases decode. An odd length or any other byte is an error. -/
def hex_decode (s : String) : Option (List UInt8) := hex_pairs (as_bytes s)

/-! ## Hashes and signatures -/

def sha256_hex (b : List UInt8) : String := hex_encode (sha256 b).val

/-- Each part after its length in four big-endian bytes. -/
def frame (parts : List (List UInt8)) : List UInt8 :=
  parts.flatMap fun p => be_bytes 4 (p.length % 2 ^ 32) ++ p

def verify_sig (pub_hex : String) (msg sig : List UInt8) : Bool :=
  match hex_decode pub_hex with
  | none => false
  | some pk =>
    if hp : pk.length = 32 then
      if hs : sig.length = 64 then ed25519_verify ⟨pk, hp⟩ msg ⟨sig, hs⟩ else false
    else false

/-- The wallet address of a key: 20 bytes of its hash. A bad key hashes as the empty one. -/
def address (pub_hex : String) : String :=
  hex_encode ((sha256 ((hex_decode pub_hex).getD [])).val.take 20)

/-- Sorted ids joined with a bar, hashed. Shared by the three set commitments. -/
def set_root (txids : List String) : String :=
  sha256_hex (as_bytes ("|".intercalate (txids.insertionSort (· ≤ ·))))

end Sestrian
