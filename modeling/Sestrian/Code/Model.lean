import Sestrian.Code.Merkle

/-!
# The model's shape as chain state (`capacity.rs`, `model_state.rs`)

Page spans are `Nat` here, without a bound, and the counters keep the widths of the source. The
spans as the source sums them, in `u64`, are in `Code/Offsets`.
-/

namespace Sestrian

/-! ## The retarget decision (`capacity.rs`) -/

def QUOTA_ONE_4DP : Int64 := 10000
def DAMP_DIV : Int := 4

structure Decision where
  quota_4dp : Int64
  pinned_streak : Int64
  slack_streak : Int64
  schedule : Bool
  freeze : Bool
  thaw_ok : Bool

/-- `div_euclid` is Lean's `/` on `Int`. The intermediate values are `i128`, too wide to wrap. -/
def retarget_decide (quota_4dp pinned_streak slack_streak accepted staleness_4dp quota_min quota_max
    target_deltas : Int64) (damp_div : Int) (stale_ceiling k_sustain : Int64) : Decision :=
  let raw : Int :=
    if accepted > 0 then quota_4dp.toInt * accepted.toInt / target_deltas.toInt else quota_min.toInt
  let q : Int := quota_4dp.toInt + (raw - quota_4dp.toInt) / damp_div
  let quota_4dp := Int64.ofInt (max quota_min.toInt (min quota_max.toInt q))
  let surplus : Bool := quota_4dp.toInt ≥ (quota_max * 95).toInt / 100
    && staleness_4dp ≤ stale_ceiling && accepted ≥ target_deltas
  let deficit : Bool := quota_4dp.toInt ≤ (quota_min * 105).toInt / 100 && accepted < target_deltas
  let pinned_streak := if surplus then pinned_streak + 1 else 0
  let slack_streak := if deficit then slack_streak + 1 else 0
  { quota_4dp, pinned_streak, slack_streak,
    schedule := pinned_streak ≥ k_sustain,
    freeze := slack_streak ≥ k_sustain,
    thaw_ok := surplus }

/-! ## Page table -/

structure ModelSpec where
  n_layers : UInt64
  d_model : UInt64
  d_ff : UInt64
  n_experts_initial : UInt64
  e_max : UInt64
  backbone_params : UInt64
  deriving DecidableEq

def ModelSpec.expert_page_len (s : ModelSpec) : Nat :=
  (s.d_model * s.d_ff + s.d_ff + s.d_ff * s.d_model + s.d_model).toNat

structure GenesisParams where
  spec : ModelSpec
  retarget_window : UInt64 := 16
  target_deltas : Int64 := 8
  quota_min_4dp : Int64 := 2500
  quota_max_4dp : Int64 := 80000
  stale_ceiling_4dp : Int64 := 2000
  k_sustain : Int64 := 3
  announce_lead : UInt64 := 2
  delta_max_nnz : UInt64 := 1000000
  v3_height : UInt64 := 288
  v4_height : UInt64 := 608
  growth_quorum : Nat := 3
  v5_height : UInt64 := 0
  lane_width : Nat := 8
  lane_epoch_len : UInt64 := 16

inductive PageKind where
  | backbone
  | expert
  deriving DecidableEq

inductive PageStatus where
  | active
  | frozen
  deriving DecidableEq

structure Page where
  start : Nat
  stop : Nat
  kind : PageKind
  layer : Int
  expert : Int
  status : PageStatus
  deriving DecidableEq

/-- An expert page appended by a block: `(page_id, layer, expert, trigger)`. -/
structure Activation where
  page_id : Nat
  layer : Int
  expert : Int
  trigger : String
  deriving DecidableEq

structure PendingGrowth where
  window : UInt64
  layer : Int
  trigger : String
  deriving DecidableEq

structure ModelState where
  pages : List Page
  quota_4dp : Int64
  pinned_streak : Int64
  slack_streak : Int64
  pending_growth : List PendingGrowth
  window_id : UInt64
  win_accepted : UInt64
  win_zero_scored : UInt64
  win_score_sum : UInt64
  rev : UInt64
  win_scorers : List String
  events_total : UInt64
  deriving DecidableEq

/-- The expert pages of the genesis table, in `(layer, expert)` order from offset `off`. -/
def genesis_experts (spec : ModelSpec) (off : Nat) : List (Nat × Nat) → List Page
  | [] => []
  | (l, e) :: rest =>
    { start := off, stop := off + spec.expert_page_len, kind := .expert, layer := l, expert := e,
      status := .active } :: genesis_experts spec (off + spec.expert_page_len) rest

namespace ModelState

def genesis (spec : ModelSpec) : ModelState where
  pages :=
    { start := 0, stop := spec.backbone_params.toNat, kind := .backbone, layer := -1, expert := -1,
      status := .active } ::
    genesis_experts spec spec.backbone_params.toNat
      ((List.range spec.n_layers.toNat).flatMap fun l =>
        (List.range spec.n_experts_initial.toNat).map fun e => (l, e))
  quota_4dp := QUOTA_ONE_4DP
  pinned_streak := 0
  slack_streak := 0
  pending_growth := []
  window_id := 0
  win_accepted := 0
  win_zero_scored := 0
  win_score_sum := 0
  rev := 2
  win_scorers := []
  events_total := 0

/-! ## Commitments -/

def page_json (p : Page) : String :=
  "[" ++ toString p.start ++ "," ++ toString p.stop ++ ",\"" ++
    (match p.kind with | .backbone => "backbone" | .expert => "expert") ++ "\"," ++
    toString p.layer ++ "," ++ toString p.expert ++ ",\"" ++
    (match p.status with | .active => "A" | .frozen => "F") ++ "\"]"

def pending_json (g : PendingGrowth) : String :=
  "[" ++ toString g.window.toNat ++ "," ++ toString g.layer ++ ",\"" ++ g.trigger ++ "\"]"

def json_field (key val : String) : String := "\"" ++ key ++ "\":" ++ val

/-- `rev`, `win_score_sum` and `win_scorers` enter the text only from the revision that added
them. -/
def canonical_json (s : ModelState) : String :=
  let fields :=
    [json_field "events_total" (toString s.events_total.toNat),
     json_field "pages" ("[" ++ ",".intercalate (s.pages.map page_json) ++ "]"),
     json_field "pending_growth" ("[" ++ ",".intercalate (s.pending_growth.map pending_json) ++ "]"),
     json_field "pinned_streak" (toString s.pinned_streak.toInt),
     json_field "quota_4dp" (toString s.quota_4dp.toInt)] ++
    (if s.rev ≥ 3 then [json_field "rev" (toString s.rev.toNat)] else []) ++
    [json_field "slack_streak" (toString s.slack_streak.toInt),
     json_field "win_accepted" (toString s.win_accepted.toNat)] ++
    (if s.rev ≥ 3 then [json_field "win_score_sum" (toString s.win_score_sum.toNat)] else []) ++
    (if s.rev ≥ 4 then
      [json_field "win_scorers"
        ("[" ++ ",".intercalate (s.win_scorers.map fun x => "\"" ++ x ++ "\"") ++ "]")] else []) ++
    [json_field "win_zero_scored" (toString s.win_zero_scored.toNat),
     json_field "window_id" (toString s.window_id.toNat)]
  "\x7b" ++ ",".intercalate fields ++ "\x7d"

def model_root [Crypto] (s : ModelState) : String := sha256_hex (as_bytes s.canonical_json)

/-! ## Queries -/

/-- The end of the last page. The page table is never empty. -/
def dim (s : ModelState) : Nat := (s.pages.getLast?.map (·.stop)).getD 0

def spans (s : ModelState) : List (Nat × Nat) := s.pages.map fun p => (p.start, p.stop)

def page_span (s : ModelState) (page_id : Nat) : Nat × Nat := s.spans.getD page_id (0, 0)

def is_active (s : ModelState) (page_id : Nat) : Bool :=
  s.pages[page_id]?.map (·.status) = some .active

def genesis_page_count (spec : ModelSpec) : Nat :=
  (1 + spec.n_layers * spec.n_experts_initial).toNat

def claimed_params (s : ModelState) (page_ids : List UInt32) : Nat :=
  (page_ids.map fun p => (s.page_span p.toNat).2 - (s.page_span p.toNat).1).sum

/-- How many nonzero coordinates a delta that claims these pages needs. The cast to `u64`
takes the value modulo `2^64`. -/
def required_nnz (s : ModelState) (page_ids : List UInt32) : UInt64 :=
  UInt64.ofInt ((s.claimed_params page_ids : Int) * s.quota_4dp.toInt / 1000000)

end ModelState

/-! ## Weights as bytes -/

def int64_bytes (w : List Int64) : List UInt8 := w.flatMap fun x => le_bytes 8 x.toUInt64.toNat

def page_state_root [Crypto] (w : List Int64) (state : ModelState) : String :=
  hex_encode (merkle.root (state.pages.map fun p => int64_bytes (slice w p.start p.stop))).val

/-! ## A new expert page -/

def INIT_SPAN : Nat := 2623
def INIT_HALF : Int := 1311

/-- Four `u64` lanes from each digest. Bias coordinates stay zero. -/
def page_init [Crypto] (trigger_hex : String) (page_id : Nat) (spec : ModelSpec) : List Int64 :=
  let w1_end := (spec.d_model * spec.d_ff).toNat
  let b1_end := w1_end + spec.d_ff.toNat
  let w2_end := b1_end + (spec.d_ff * spec.d_model).toNat
  let lead := "sestrian-page-init|v1|" ++ trigger_hex ++ "|" ++ toString page_id ++ "|"
  (List.range spec.expert_page_len).map fun j =>
    if j < w1_end ∨ (b1_end ≤ j ∧ j < w2_end) then
      let digest := (sha256 (as_bytes (lead ++ toString (j / 4)))).val
      Int64.ofInt ((from_be_bytes (slice digest (8 * (j % 4)) (8 * (j % 4) + 8)) % INIT_SPAN : Nat) -
        INIT_HALF)
    else 0

/-! ## The fold of one block -/

/-- The revision and the window accumulators, before any window closes. -/
def fold_counters (state : ModelState) (params : GenesisParams) (height n_txs zero_scored score_sum : UInt64)
    (proposer : String) : ModelState :=
  let rev := if height ≥ params.v3_height then 3 else state.rev
  let rev := if height ≥ params.v4_height then 4 else rev
  let counts : Bool := rev ≥ 4 && score_sum > 0 && proposer ≠ "" &&
    !state.win_scorers.contains proposer && state.win_scorers.length < params.growth_quorum
  { state with
    rev
    win_accepted := state.win_accepted + n_txs
    win_zero_scored := state.win_zero_scored + zero_scored
    win_score_sum := if rev ≥ 3 then state.win_score_sum + score_sum else state.win_score_sum
    win_scorers := if counts then state.win_scorers ++ [proposer] else state.win_scorers }

/-- Appends the page of one growth event that is due. -/
def activate (spec : ModelSpec) (pages : List Page) (g : PendingGrowth) : List Page × Activation :=
  let start := (pages.getLast?.map (·.stop)).getD 0
  let expert := ((pages.filter fun p => p.kind = .expert ∧ p.layer = g.layer).map (·.expert)).foldl max (-1) + 1
  (pages ++ [{ start, stop := start + spec.expert_page_len, kind := .expert, layer := g.layer, expert,
               status := .active }],
   { page_id := pages.length, layer := g.layer, expert, trigger := g.trigger })

def activate_all (spec : ModelSpec) : List Page → List PendingGrowth → List Page × List Activation
  | pages, [] => (pages, [])
  | pages, g :: rest =>
    let (pages, a) := activate spec pages g
    let (pages, as) := activate_all spec pages rest
    (pages, a :: as)

def set_status (pages : List Page) (i : Nat) (status : PageStatus) : List Page :=
  pages.modify i fun p => { p with status }

/-- The ids past the genesis pages that have this status. -/
def grown_with (params : GenesisParams) (pages : List Page) (status : PageStatus) : List Nat :=
  (List.range pages.length).filter fun i =>
    ModelState.genesis_page_count params.spec ≤ i ∧ pages[i]?.map (·.status) = some status

def window_staleness (params : GenesisParams) (s : ModelState) : Int64 :=
  if s.rev ≥ 4 then if s.win_scorers.length ≥ params.growth_quorum then 0 else 10000
  else if s.rev ≥ 3 then if s.win_score_sum > 0 then 0 else 10000
  else Int64.ofInt ((s.win_zero_scored.toNat : Int) * 10000 / max 1 (s.win_accepted.toNat : Int))

/-- What the decision of a closed window does to the state. Thaw and schedule are decided on
the statuses before either of them, and so is the freeze. -/
def apply_decision (params : GenesisParams) (prev_hash : String) (d : Decision) (s : ModelState) : ModelState :=
  let frozen_grown := grown_with params s.pages .frozen
  let active_grown := grown_with params s.pages .active
  let s := { s with quota_4dp := d.quota_4dp, pinned_streak := d.pinned_streak, slack_streak := d.slack_streak }
  let s :=
    if d.thaw_ok ∧ frozen_grown ≠ [] then
      { s with pages := set_status s.pages (frozen_grown.headD 0) .active, pinned_streak := 0 }
    else if d.schedule ∧ s.pending_growth = [] then
      { s with
        pending_growth := s.pending_growth ++
          [{ window := s.window_id + params.announce_lead,
             layer := (s.events_total % params.spec.n_layers).toNat, trigger := prev_hash }]
        events_total := s.events_total + 1
        pinned_streak := 0
        quota_4dp := Int64.ofInt ((params.quota_min_4dp + params.quota_max_4dp).toInt / 2) }
    else s
  if d.freeze ∧ active_grown ≠ [] then
    { s with pages := set_status s.pages (active_grown.getLastD 0) .frozen, slack_streak := 0 }
  else s

/-- The end of a retarget window: growth that is due, the decision, and fresh accumulators. -/
def fold_window (params : GenesisParams) (prev_hash : String) (s : ModelState) : ModelState × List Activation :=
  let window_id := s.window_id + 1
  let due := s.pending_growth.filter fun g => g.window ≤ window_id
  let still := s.pending_growth.filter fun g => ¬ g.window ≤ window_id
  let (pages, activations) := activate_all params.spec s.pages due
  let s := { s with window_id, pending_growth := still, pages }
  let d := retarget_decide s.quota_4dp s.pinned_streak s.slack_streak (Int64.ofNat s.win_accepted.toNat)
    (window_staleness params s) params.quota_min_4dp params.quota_max_4dp params.target_deltas DAMP_DIV
    params.stale_ceiling_4dp params.k_sustain
  let s := apply_decision params prev_hash d s
  ({ s with win_accepted := 0, win_zero_scored := 0, win_score_sum := 0, win_scorers := [] }, activations)

def fold (state : ModelState) (params : GenesisParams) (height n_txs zero_scored : UInt64) (prev_hash : String)
    (score_sum : UInt64) (proposer : String) : ModelState × List Activation :=
  let s := fold_counters state params height n_txs zero_scored score_sum proposer
  if height > 0 ∧ height % params.retarget_window = 0 then fold_window params prev_hash s else (s, [])

end Sestrian
