import Sestrian.Code.Model
import Sestrian.Code.Value

/-!
# The model's shape from JSON (`ModelState::from_json_value`)

The `kind` and the `status` of a page are one of two texts each, so a page with another text, which the source would
keep, is not read here. No fold makes one.
-/

namespace Sestrian

open serde_json (Value)

def PageKind.of_text (s : String) : Option PageKind :=
  if s = "backbone" then some .backbone else if s = "expert" then some .expert else none

def PageStatus.of_text (s : String) : Option PageStatus :=
  if s = "A" then some .active else if s = "F" then some .frozen else none

namespace ModelState

def read_page (p : Value) : Option Page := do
  let a ← p.as_array
  some {
    start := (← (← a[0]?).as_u64).toNat
    stop := (← (← a[1]?).as_u64).toNat
    kind := ← PageKind.of_text (← (← a[2]?).as_str)
    layer := (← (← a[3]?).as_i64).toInt
    expert := (← (← a[4]?).as_i64).toInt
    status := ← PageStatus.of_text (← (← a[5]?).as_str) }

def read_pending (e : Value) : Option PendingGrowth := do
  let a ← e.as_array
  some {
    window := ← (← a[0]?).as_u64
    layer := (← (← a[1]?).as_i64).toInt
    trigger := ← (← a[2]?).as_str }

def from_json_value (v : Value) : Option ModelState := do
  let pages ← (← (← v.get "pages").as_array).mapM read_page
  let pending ← (← (← v.get "pending_growth").as_array).mapM read_pending
  some {
    pages
    quota_4dp := ← (← v.get "quota_4dp").as_i64
    pinned_streak := ← (← v.get "pinned_streak").as_i64
    slack_streak := ← (← v.get "slack_streak").as_i64
    pending_growth := pending
    window_id := ← (← v.get "window_id").as_u64
    win_accepted := ← (← v.get "win_accepted").as_u64
    win_zero_scored := ← (← v.get "win_zero_scored").as_u64
    events_total := ← (← v.get "events_total").as_u64
    win_score_sum := ((v.get "win_score_sum").bind Value.as_u64).getD 0
    rev := ((v.get "rev").bind Value.as_u64).getD 2
    win_scorers := (((v.get "win_scorers").bind Value.as_array).map fun a => a.filterMap Value.as_str).getD [] }

/-- What a snapshot does with the text. `from_str` is the parser of `serde_json`. -/
def read_text (from_str : String → Option Value) (text : String) : Option ModelState :=
  (from_str text).bind from_json_value

end ModelState

end Sestrian
