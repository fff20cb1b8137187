import Sestrian.Code.Core

/-!
# Who may propose, and what a miner may claim (`lottery.rs`, `lanes.rs`)
-/

namespace Sestrian

variable [Crypto]

namespace lottery

def TARGET_PROPOSERS : Nat := 2
def ATTEMPT_MAX : UInt64 := 16

def seed (prev_hash : String) (height attempt : UInt64) : List UInt8 :=
  (sha256 (as_bytes ("sestrian-lottery|" ++ prev_hash ++ "|" ++ toString height.toNat ++ "|" ++
    toString attempt.toNat))).val

def vrf_output (proof : List UInt8) : ByteArr 32 := sha256 proof

/-- `u8::leading_zeros` of a byte that is not zero. -/
def byte_leading_zeros (b : UInt8) : Nat := 7 - b.toNat.log2

/-- Zero bits at the front: whole zero bytes, then the zeros of the first byte that is not zero. -/
def leading_zeros : List UInt8 → Nat
  | [] => 0
  | b :: rest => if b = 0 then 8 + leading_zeros rest else byte_leading_zeros b

def vrf_work (proof : List UInt8) : UInt64 := UInt64.ofNat (leading_zeros (vrf_output proof).val + 1)

def attempt_work (proof : List UInt8) (attempt : UInt64) : UInt64 :=
  max (vrf_work proof >>> min attempt 63) 1

/-- Long division, one output byte each round, the remainder in `u128`. -/
def div_bytes (divisor : Nat) : Nat → Nat → List UInt8
  | 0, _ => []
  | n + 1, rem =>
    let cur := rem <<< 8 % 2 ^ 128
    UInt8.ofNat (cur / divisor) :: div_bytes divisor n (cur % divisor)

def mul2pow256_div (numerator divisor : Nat) : List UInt8 := div_bytes divisor 32 numerator

def below_threshold (output : ByteArr 32) (stake total_stake attempt : UInt64) : Bool :=
  if stake = 0 then false
  else
    let numerator := (TARGET_PROPOSERS * stake.toNat) <<< attempt.toNat % 2 ^ 128
    if numerator ≥ total_stake.toNat then true
    else output.val < mul2pow256_div numerator total_stake.toNat

def eligible (pub_hex : String) (proof : List UInt8) (prev_hash : String)
    (height attempt stake total_stake : UInt64) : Bool :=
  if attempt > ATTEMPT_MAX then false
  else if !verify_sig pub_hex (seed prev_hash height attempt) proof then false
  else if attempt = ATTEMPT_MAX then true
  else if total_stake = 0 then attempt = 0
  else below_threshold (vrf_output proof) stake total_stake attempt

end lottery

namespace lanes

def n_lanes (active_expert_pages lane_width : Nat) : Nat :=
  if active_expert_pages = 0 then 1 else max (active_expert_pages / max lane_width 1) 1

def lane_of_miner (epoch : UInt64) (miner_pub : String) (n : Nat) : Nat :=
  if n ≤ 1 then 0
  else
    let d := (sha256 (as_bytes ("sestrian-lane|v5|" ++ toString epoch.toNat ++ "|" ++ miner_pub))).val
    from_be_bytes (d.take 8) % n

/-- Backbone pages, and the stripe of the active expert pages that belongs to the miner's lane. -/
def claimable_pages (epoch : UInt64) (miner_pub : String) (model : ModelState) (lane_width : Nat) :
    List UInt32 :=
  let ids := List.range model.pages.length
  let of_kind (k : PageKind) := ids.filter fun i => model.pages[i]?.map (·.kind) = some k ∧ model.is_active i
  let expert_ids := of_kind .expert
  let n := n_lanes expert_ids.length lane_width
  let lane := lane_of_miner epoch miner_pub n
  let stripe := if n ≤ 1 then expert_ids
    else (expert_ids.zipIdx.filter fun e => e.2 % n = lane).map (·.1)
  (stripe ++ of_kind .backbone).map UInt32.ofNat

end lanes

end Sestrian
