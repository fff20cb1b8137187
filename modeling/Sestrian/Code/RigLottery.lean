import Sestrian.Code.Lottery

/-!
# The rig's lottery (`rig/lottery.py`)

Python integers have no bound. The stakes, heights and attempts that a node passes are not negative.
-/

namespace Sestrian.rig.lottery

variable [Crypto]

def TARGET_PROPOSERS : Nat := 2
def ATTEMPT_MAX : Nat := 16
def TWO256 : Nat := 1 <<< 256

def seed (prev_hash : String) (height attempt : Nat) : List UInt8 :=
  (sha256 (as_bytes ("sestrian-lottery|" ++ prev_hash ++ "|" ++ toString height ++ "|" ++ toString attempt))).val

/-- `int.from_bytes(.., "big")`. -/
def vrf_output (proof : List UInt8) : Nat := from_be_bytes (sha256 proof).val

/-- `Nat.size` is `int.bit_length`. -/
def vrf_work (proof : List UInt8) : Nat :=
  let out := vrf_output proof
  let lz := if out > 0 then 256 - out.size else 256
  lz + 1

def attempt_work (proof : List UInt8) (attempt : Nat) : Nat := max 1 (vrf_work proof >>> attempt)

def threshold (stake total_stake attempt : Nat) : Nat :=
  if total_stake ≤ 0 then TWO256
  else if stake ≤ 0 then 0
  else min TWO256 ((TWO256 * TARGET_PROPOSERS * stake) <<< attempt / total_stake)

def eligible (pub : String) (proof : List UInt8) (prev_hash : String) (height attempt stake total_stake : Nat) : Bool :=
  if ¬(0 ≤ attempt ∧ attempt ≤ ATTEMPT_MAX) then false
  else if !verify_sig pub (seed prev_hash height attempt) proof then false
  else if attempt = ATTEMPT_MAX then true
  else if total_stake ≤ 0 then attempt = 0
  else vrf_output proof < threshold stake total_stake attempt

end Sestrian.rig.lottery
