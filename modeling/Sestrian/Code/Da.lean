import Sestrian.Code.Merkle

/-!
# Erasure coding (`da.rs`)

Reed-Solomon over GF(256), the field of generator 3 and modulus `0x11b`.
-/

namespace Sestrian

namespace da

/-! ## The field -/

/-- Times the generator. -/
def gf_step (x : Nat) : Nat :=
  let x := x ^^^ (x <<< 1)
  if x &&& 0x100 ≠ 0 then x ^^^ 0x11b else x

/-- The first 255 entries of the `exp` table. -/
def powers : List Nat := List.iterate gf_step 1 255

def gf_exp (i : Nat) : UInt8 := UInt8.ofNat (powers.getD (i % 255) 0)

def gf_log (x : UInt8) : Nat := if x = 0 then 0 else powers.idxOf x.toNat

def gf_mul (a b : UInt8) : UInt8 := if a = 0 ∨ b = 0 then 0 else gf_exp (gf_log a + gf_log b)

def gf_inv (a : UInt8) : UInt8 := gf_exp (255 - gf_log a)

/-! ## Matrices -/

/-- Row `i` of the Vandermonde matrix evaluates at `i + 1`. -/
def vandermonde_row (k i : Nat) : List UInt8 :=
  (List.range k).map fun j => gf_exp (gf_log (UInt8.ofNat (i + 1)) * j % 255)

/-- Where the pivot row is the shorter one, the rest of the row stays. -/
def add_scaled (f : UInt8) : List UInt8 → List UInt8 → List UInt8
  | x :: row, y :: pivot_row => (x ^^^ gf_mul f y) :: add_scaled f row pivot_row
  | row, _ => row

/-- The matrix with the identity on its right. -/
def augment (m : List (List UInt8)) : List (List UInt8) :=
  m.zipIdx.map fun r => r.1 ++ (List.range m.length).map fun j => if r.2 = j then 1 else 0

def swap_rows (a : List (List UInt8)) (i j : Nat) : List (List UInt8) :=
  (a.set i (a.getD j [])).set j (a.getD i [])

def clear_column (a : List (List UInt8)) (col : Nat) (pivot_row : List UInt8) : List (List UInt8) :=
  a.zipIdx.map fun r =>
    if r.2 = col then pivot_row
    else if r.1.getD col 0 ≠ 0 then add_scaled (r.1.getD col 0) r.1 pivot_row
    else r.1

/-- One round of Gauss-Jordan. -/
def eliminate (k : Nat) (a : List (List UInt8)) (col : Nat) : Option (List (List UInt8)) := do
  let piv ← (List.range' col (k - col)).find? fun r => (a.getD r []).getD col 0 ≠ 0
  let a := swap_rows a col piv
  let pivot_row := (a.getD col []).map fun v => gf_mul v (gf_inv ((a.getD col []).getD col 0))
  some (clear_column a col pivot_row)

def mat_inv (m : List (List UInt8)) : Option (List (List UInt8)) := do
  let a ← (List.range m.length).foldlM (eliminate m.length) (augment m)
  some (a.map (·.drop m.length))

/-! ## Shards -/

def combine_rows (coeffs : List UInt8) (byte_rows : List (List UInt8)) : List UInt8 :=
  (coeffs.zip byte_rows).foldl (fun acc c => if c.1 = 0 then acc else add_scaled c.1 acc c.2)
    (List.replicate (byte_rows.headD []).length 0)

/-- The body as `k` rows of one length, padded with zeros. -/
def rows (body : List UInt8) (k : Nat) : List (List UInt8) :=
  let data := body ++ List.replicate ((k - body.length % k) % k) 0
  let l := data.length / k
  (List.range k).map fun r => slice data (r * l) ((r + 1) * l)

def encode (body : List UInt8) (k n : Nat) : List (List UInt8) :=
  (List.range n).map fun i => combine_rows (vandermonde_row k i) (rows body k)

/-- Hands every shard to `emit` and keeps only its leaf hash. The source asserts `0 < k ≤ n ≤ 255`
here and in `encode`. -/
def disperse_streaming [Crypto] {σ : Type} (body : List UInt8) (k n : Nat) (emit : σ → Nat → List UInt8 → σ) (s : σ) :
    σ × Hash :=
  let byte_rows := rows body k
  let r := (List.range n).foldl (fun (acc : σ × List Hash) i =>
      let shard := combine_rows (vandermonde_row k i) byte_rows
      (emit acc.1 i shard, acc.2 ++ [merkle.leaf_hash shard])) (s, [])
  (r.1, merkle.root_from_hashes r.2)

abbrev Shards := Std.ExtTreeMap UInt32 (List UInt8) compare

/-- From the `k` shards of least index. The source panics where `k` is zero or an index is
past the `log` table. -/
def reconstruct (shards : Shards) (k orig_len : Nat) : Option (List UInt8) :=
  if shards.size < k ∨ k = 0 then none
  else do
    let chosen := shards.toList.take k
    if chosen.any fun s => s.1.toNat + 1 ≥ 256 then none
    else
      let inv ← mat_inv (chosen.map fun s => vandermonde_row k s.1.toNat)
      some ((inv.flatMap fun row => combine_rows row (chosen.map (·.2))).take orig_len)

end da

end Sestrian
