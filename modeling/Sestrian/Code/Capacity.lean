import Sestrian.Code.Model

/-!
# The standalone controller (`capacity.rs`)

The same decision as in the fold, over counters of modules. The counters are `Int` here, without
a bound. How long they stay within the `i64` of the source is part of the results about them.
-/

namespace Sestrian

/-- The decisions taken for one window. -/
structure WindowEvents where
  window : UInt64
  grew : Int
  froze : Int
  thawed : Int
  scheduled : Int
  quota_4dp : Int64
  total : Int
  active : Int
  deriving DecidableEq

structure CapacityRetarget where
  quota_4dp : Int64 := QUOTA_ONE_4DP
  quota_min : Int64 := 2500
  quota_max : Int64 := 80000
  target_deltas : Int64 := 8
  damp_div : Int := DAMP_DIV
  stale_ceiling : Int64 := 2000
  k_sustain : Int64 := 3
  growth_bound : Int := 1
  announce_lead : UInt64 := 2
  total_modules : Int := 4
  active_modules : Int := 4
  min_active : Int := 4
  pinned_streak : Int64 := 0
  slack_streak : Int64 := 0
  pending_growth : List UInt64 := []
  window_id : UInt64 := 0
  deriving DecidableEq

namespace CapacityRetarget

/-- The next window opens, and growth whose lead has elapsed is there. -/
def open_window (c : CapacityRetarget) : CapacityRetarget :=
  let window_id := c.window_id + 1
  let due := (c.pending_growth.filter fun w => decide (w ≤ window_id)).length
  { c with
    window_id
    total_modules := c.total_modules + due * c.growth_bound
    active_modules := c.active_modules + due * c.growth_bound
    pending_growth := c.pending_growth.filter fun w => decide (w > window_id) }

def decide_window (c : CapacityRetarget) (accepted staleness_4dp : Int64) : Decision :=
  retarget_decide c.quota_4dp c.pinned_streak c.slack_streak accepted staleness_4dp c.quota_min c.quota_max
    c.target_deltas c.damp_div c.stale_ceiling c.k_sustain

/-- A thaw comes before new growth. The second value is how many modules thaw, the third how
many growth events are scheduled. -/
def recover (c : CapacityRetarget) (d : Decision) : CapacityRetarget × Int × Int :=
  let c := { c with quota_4dp := d.quota_4dp, pinned_streak := d.pinned_streak, slack_streak := d.slack_streak }
  if d.thaw_ok ∧ c.active_modules < c.total_modules then
    ({ c with active_modules := c.active_modules + 1, pinned_streak := 0 }, 1, 0)
  else if d.schedule ∧ c.pending_growth = [] then
    ({ c with
      pending_growth := c.pending_growth ++ [c.window_id + c.announce_lead]
      pinned_streak := 0
      quota_4dp := Int64.ofInt ((c.quota_min + c.quota_max).toInt / 2) }, 0, 1)
  else (c, 0, 0)

def decline (c : CapacityRetarget) (d : Decision) : CapacityRetarget × Int :=
  if d.freeze ∧ c.active_modules > c.min_active then
    ({ c with active_modules := c.active_modules - 1, slack_streak := 0 }, 1)
  else (c, 0)

/-- One window. -/
def observe_window (c : CapacityRetarget) (accepted staleness_4dp : Int64) : CapacityRetarget × WindowEvents :=
  let o := c.open_window
  let d := o.decide_window accepted staleness_4dp
  let r := o.recover d
  let f := r.1.decline d
  (f.1, { window := f.1.window_id, grew := o.total_modules - c.total_modules, froze := f.2, thawed := r.2.1,
          scheduled := r.2.2, quota_4dp := f.1.quota_4dp, total := f.1.total_modules, active := f.1.active_modules })

end CapacityRetarget

end Sestrian
