import Sestrian.Code.Crypto

/-!
# The page Merkle tree (`merkle.rs`)

Leaves and nodes are hashed under different first bytes. The last node of an odd
level is hashed with itself.
-/

namespace Sestrian

/-- A SHA-256 value, `[u8; 32]`. -/
abbrev Hash := ByteArr 32

def zero_hash : Hash := ⟨List.replicate 32 0, by simp⟩

namespace merkle

variable [Crypto]

def leaf_hash (page_bytes : List UInt8) : Hash := sha256 (0x00 :: page_bytes)

def node_hash (a b : Hash) : Hash := sha256 (0x01 :: (a.val ++ b.val))

/-- One level from the level below it. -/
def next_level : List Hash → List Hash
  | [] => []
  | [a] => [node_hash a a]
  | a :: b :: rest => node_hash a b :: next_level rest

/-- `while level.len() > 1`. Every round at least halves the level, so its length is
fuel enough. -/
def fold_levels : Nat → List Hash → Hash
  | 0, level => level.headD zero_hash
  | n + 1, level => if level.length ≤ 1 then level.headD zero_hash else fold_levels n (next_level level)

/-- The source panics on an empty level. No caller has one: a page table starts with the
backbone page. -/
def root_from_hashes (level : List Hash) : Hash := fold_levels level.length level

def root (leaves : List (List UInt8)) : Hash := root_from_hashes (leaves.map leaf_hash)

def build_levels : Nat → List Hash → List (List Hash)
  | 0, level => [level]
  | n + 1, level => if level.length ≤ 1 then [level] else level :: build_levels n (next_level level)

/-- All levels, from the leaf hashes up to the root. -/
def levels (leaf_hashes : List Hash) : List (List Hash) :=
  build_levels leaf_hashes.length leaf_hashes

/-- The sibling of `idx` on a level, and whether it stands on the left. -/
def sibling (level : List Hash) (idx : Nat) : Bool × Hash :=
  if idx % 2 = 0 then (false, level.getD (idx + 1) (level.getD idx zero_hash))
  else (true, level.getD (idx - 1) zero_hash)

def proof_from : List (List Hash) → Nat → List (Bool × Hash)
  | [], _ => []
  | level :: rest, idx => sibling level idx :: proof_from rest (idx / 2)

/-- The inclusion proof of one leaf: a sibling for each level below the root. -/
def proof (levels : List (List Hash)) (index : Nat) : List (Bool × Hash) :=
  proof_from levels.dropLast index

def verify_leaf (leaf : Hash) (path : List (Bool × Hash)) (expected_root : Hash) : Bool :=
  path.foldl (fun h step => if step.1 then node_hash step.2 h else node_hash h step.2) leaf
    = expected_root

end merkle

end Sestrian
