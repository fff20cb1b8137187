import Sestrian.Code.Decode
import Sestrian.Code.Store

/-!
# Reconstruction with its panics (`da.rs`, `store.rs`)

`reconstruct` and what it calls, with every index as one that may be out of range. The tables have 256 and 512
entries.
-/

open Panic

namespace Sestrian

namespace da

def log_at (i : Nat) : MayPanic Nat := unwrap (if i < 256 then some (gf_log (UInt8.ofNat i)) else none)

def exp_at (i : Nat) : MayPanic UInt8 := unwrap (if i < 512 then some (gf_exp i) else none)

def run_gf_mul (a b : UInt8) : MayPanic UInt8 := if a = 0 ∨ b = 0 then pure 0 else exp_at (gf_log a + gf_log b)

def run_vandermonde (n k : Nat) : MayPanic (List (List UInt8)) :=
  (List.range n).mapM fun i => (List.range k).mapM fun j => do
    let l ← log_at (i + 1)
    exp_at (l * j % 255)

def entry (a : List (List UInt8)) (r c : Nat) : MayPanic UInt8 := do
  let row ← unwrap a[r]?
  unwrap row[c]?

/-- `find`, whose test reads the matrix. -/
def find_pivot (a : List (List UInt8)) (col : Nat) : List Nat → MayPanic Nat
  | [] => .error (.reject ())
  | r :: rs => do
    let v ← entry a r col
    if v ≠ 0 then pure r else find_pivot a col rs

def run_swap (a : List (List UInt8)) (i j : Nat) : MayPanic (List (List UInt8)) := do
  let x ← unwrap a[i]?
  let y ← unwrap a[j]?
  pure ((a.set i y).set j x)

def run_add_scaled (f : UInt8) : List UInt8 → List UInt8 → MayPanic (List UInt8)
  | x :: row, y :: pivot_row => do
    let p ← run_gf_mul f y
    let rest ← run_add_scaled f row pivot_row
    pure ((x ^^^ p) :: rest)
  | row, _ => pure row

/-- The row `r` of the loop. It reads the pivot row, which the loop leaves alone. -/
def run_clear_row (a : List (List UInt8)) (col : Nat) (pivot_row : List UInt8) (r : Nat) : MayPanic (List UInt8) := do
  if r = col then pure pivot_row
  else
    let v ← entry a r col
    let row ← unwrap a[r]?
    if v ≠ 0 then run_add_scaled v row pivot_row else pure row

def run_eliminate (k : Nat) (a : List (List UInt8)) (col : Nat) : MayPanic (List (List UInt8)) := do
  let piv ← find_pivot a col (List.range' col (k - col))
  let a ← run_swap a col piv
  let v ← entry a col col
  let inv ← exp_at (255 - gf_log v)
  let row ← unwrap a[col]?
  let pivot_row ← row.mapM fun v => run_gf_mul v inv
  (List.range k).mapM (run_clear_row a col pivot_row)

def run_mat_inv (m : List (List UInt8)) : MayPanic (List (List UInt8)) := do
  let a ← (List.range m.length).foldlM (run_eliminate m.length) (augment m)
  a.mapM fun row => unwrap (if m.length ≤ row.length then some (row.drop m.length) else none)

/-- The products come from a table that is filled with the same lookups. -/
def run_combine_rows (coeffs : List UInt8) (byte_rows : List (List UInt8)) : MayPanic (List UInt8) := do
  let first ← unwrap byte_rows[0]?
  (coeffs.zip byte_rows).foldlM (fun acc c => if c.1 = 0 then pure acc else run_add_scaled c.1 acc c.2)
    (List.replicate first.length 0)

/-- A vector of more than `isize::MAX` bytes panics. -/
def with_capacity (bytes : Nat) : MayPanic Unit := if bytes < 2 ^ 63 then .ok () else .error .panic

def run_reconstruct (shards : Shards) (k orig_len : Nat) : MayPanic (List UInt8) :=
  if shards.size < k then .error (.reject ())
  else do
    let idx := (shards.toList.take k).map (·.1)
    let top ← unwrap (idx.map UInt32.toNat).max?
    let v ← run_vandermonde (top + 1) k
    let sub ← idx.mapM fun i => unwrap v[i.toNat]?
    let inv ← run_mat_inv sub
    let cols ← idx.mapM fun i => unwrap shards[i]?
    let first ← unwrap cols[0]?
    with_capacity (k * first.length)
    let out ← (List.range k).mapM fun r => do
      let row ← unwrap inv[r]?
      run_combine_rows row cols
    pure (out.flatten.take orig_len)

end da

namespace Store

def run_reconstruct_bytes (s : Store) (key : String) : MayPanic (List UInt8) := do
  let m ← or_none (s.dir key).info
  da.run_reconstruct (s.dir key).shards m.k m.orig_len

end Store

end Sestrian
