import Sestrian.Code.Crypto

/-!
# The beacon and its keys (`rig/beacon.py`, `rig/dkg.py`)

`py_ecc` is a parameter: two groups, a pairing, a hash to the second group and the order of the
curve. A Python `dict` is the list of its items in insertion order.
-/

namespace Sestrian

variable [Crypto]

namespace rig

/-- What ends a call. -/
inductive Raised where
  | bytes_range
  | not_invertible
  | bad_share (dealer participant : Nat)
  | index_error
  | key_error
  | type_error
  deriving DecidableEq

/-- The part of `py_ecc` in use. `multiply` is the multiple of a group element. -/
structure PyEcc (E₁ E₂ T : Type) where
  curve_order : Nat
  G1 : E₁
  hash_to_G2 : List UInt8 → E₂
  pairing : E₂ → E₁ → T

/-- `bytes(ks)`. -/
def bytes (ks : List Nat) : Except Raised (List UInt8) :=
  ks.mapM fun k => if k < 256 then .ok (UInt8.ofNat k) else .error .bytes_range

/-- `l[i]`. -/
def item {α : Type} (l : List α) (i : Nat) : Except Raised α :=
  match l[i]? with
  | some a => .ok a
  | none => .error .index_error

/-- `d[i]`. -/
def entry {α : Type} (d : List (Nat × α)) (i : Nat) : Except Raised α :=
  match d.lookup i with
  | some a => .ok a
  | none => .error .key_error

/-- `d[i] = a`. -/
def set_entry {α : Type} (d : List (Nat × α)) (i : Nat) (a : α) : List (Nat × α) :=
  if d.any (·.1 = i) then d.map fun e => if e.1 = i then (i, a) else e else d ++ [(i, a)]

structure BeaconKeys (E₁ : Type) where
  group_pk : Option E₁
  shares : List (Nat × Nat)
  partial_pks : List (Nat × E₁)
  t : Nat
  n : Nat

namespace PyEcc

section Any

variable {E₁ E₂ T : Type} [AddCommGroup E₁] [AddCommGroup E₂] (py : PyEcc E₁ E₂ T)

/-! ## `beacon.py` -/

def round_point (r : Int) : E₂ := py.hash_to_G2 (as_bytes ("sestrian-beacon|" ++ toString r))

/-- `pow(den, -1, curve_order)`. -/
def pow_inverse (den : Int) : Except Raised Int :=
  if Int.gcd den py.curve_order = 1 then .ok (Int.gcdA den py.curve_order % py.curve_order) else .error .not_invertible

/-- The numerator and the denominator of one coefficient. -/
def num_den (indices : List Nat) (i : Nat) : Int × Int :=
  indices.foldl (fun nd j => if j = i then nd
    else ((nd.1 * -(j : Int)) % py.curve_order, (nd.2 * ((i : Int) - j)) % py.curve_order)) (1, 1)

def lagrange_at_zero (indices : List Nat) : Except Raised (List (Nat × Nat)) :=
  indices.mapM fun i => do
    let inv ← py.pow_inverse (py.num_den indices i).2
    pure (i, ((py.num_den indices i).1 * inv % py.curve_order).toNat)

/-- `f(i)`, coefficient by coefficient. -/
def share_of (coeffs : List Nat) (i : Nat) : Nat :=
  coeffs.zipIdx.foldl (fun s c => (s + c.1 * (i ^ c.2 % py.curve_order)) % py.curve_order) 0

def scalar (seed : List UInt8) : Nat := from_be_bytes (sha256 seed).val % py.curve_order

def deal (n t : Nat) (seed : List UInt8) : Except Raised (BeaconKeys E₁) := do
  let coeffs ← (List.range t).mapM fun k => do pure (py.scalar (seed ++ (← bytes [k])))
  let secret ← item coeffs 0
  let shares := (List.range' 1 n).map fun i => (i, py.share_of coeffs i)
  pure { group_pk := some (secret • py.G1), shares, partial_pks := shares.map fun e => (e.1, e.2 • py.G1), t, n }

def partial_sign (share : Nat) (r : Int) : E₂ := share • py.round_point r

/-- One term more. -/
def add_term {M : Type} [Add M] (acc : Option M) (term : M) : Option M :=
  some (match acc with
    | none => term
    | some a => a + term)

def combine (_r : Int) (partials : List (Nat × E₂)) : Except Raised (Option E₂) := do
  let lam ← py.lagrange_at_zero (partials.map (·.1))
  partials.foldlM (fun acc e => do pure (add_term acc (((← entry lam e.1) % py.curve_order) • e.2))) none

variable [DecidableEq E₁] [DecidableEq T]

def verify_partial (sig_i : E₂) (r : Int) (partial_pk_i : E₁) : Bool :=
  py.pairing sig_i py.G1 = py.pairing (py.round_point r) partial_pk_i

def verify (group_sig : E₂) (r : Int) (group_pk : E₁) : Bool :=
  py.pairing group_sig py.G1 = py.pairing (py.round_point r) group_pk

/-- `pairing` takes no `None`. -/
def verify_keys (group_sig : Option E₂) (r : Int) (group_pk : Option E₁) : Except Raised Bool :=
  match group_sig, group_pk with
  | some sig, some pk => .ok (py.verify sig r pk)
  | _, _ => .error .type_error

def produce (keys : BeaconKeys E₁) (r : Int) (signer_indices : List Nat) : Except Raised (Option E₂ × Bool) := do
  let partials ← signer_indices.foldlM (fun (partials : List (Nat × E₂)) i => do
    let sig := py.partial_sign (← entry keys.shares i) r
    let pk ← entry keys.partial_pks i
    pure (if py.verify_partial sig r pk then set_entry partials i sig else partials)) []
  if partials.length < keys.t then pure (none, false)
  else do
    let gsig ← py.combine r (partials.take keys.t)
    pure (gsig, ← py.verify_keys gsig r keys.group_pk)

/-! ## `dkg.py` -/

structure Dealer (E₁ : Type) where
  idx : Nat
  coeffs : List Nat
  commitments : List E₁

def create (idx t : Nat) (seed : List UInt8) : Except Raised (Dealer E₁) := do
  let coeffs ← (List.range t).mapM fun j => do pure (py.scalar (seed ++ (← bytes [idx, j])))
  pure { idx, coeffs, commitments := coeffs.map (· • py.G1) }

def share_for (d : Dealer E₁) (m : Nat) : Nat := py.share_of d.coeffs m

def verify_share (share m : Nat) (commitments : List E₁) : Bool :=
  some (share • py.G1) =
    commitments.zipIdx.foldl (fun rhs c => add_term rhs ((m ^ c.2 % py.curve_order) • c.1)) none

/-- What the participant sums up, once it has verified each dealer's share to it. -/
def share_sum (dealers : List (Dealer E₁)) (m : Nat) : Except Raised Nat :=
  dealers.foldlM (fun acc d =>
    let s := py.share_for d m
    if py.verify_share s m d.commitments then .ok ((acc + s) % py.curve_order) else .error (.bad_share d.idx m)) 0

def run_dkg (n t : Nat) (seed : List UInt8) : Except Raised (BeaconKeys E₁) := do
  let dealers ← (List.range' 1 n).mapM fun i => py.create i t seed
  let shares ← (List.range' 1 n).mapM fun m => do pure (m, ← py.share_sum dealers m)
  let group_pk ← dealers.foldlM (fun acc d => do pure (add_term acc (← item d.commitments 0))) none
  pure { group_pk, shares, partial_pks := shares.map fun e => (e.1, e.2 • py.G1), t, n }

end Any

end PyEcc

end rig

end Sestrian
