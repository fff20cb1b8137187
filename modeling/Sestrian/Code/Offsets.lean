import Sestrian.Code.Model

/-!
# The spans of the pages in `u64` (`model_state.rs`)

The page table as the source computes it: the ends of the pages are sums of `u64`, and a sum from
`2^64` on is its remainder.
-/

namespace Sestrian

/-- The expert pages of the genesis table, in `(layer, expert)` order from offset `off`. -/
def genesis_experts_u64 (spec : ModelSpec) (off : UInt64) : List (Nat × Nat) → List Page
  | [] => []
  | (l, e) :: rest =>
    let stop := off + UInt64.ofNat spec.expert_page_len
    { start := off.toNat, stop := stop.toNat, kind := .expert, layer := l, expert := e, status := .active } ::
      genesis_experts_u64 spec stop rest

def ModelState.genesis_u64 (spec : ModelSpec) : ModelState :=
  { ModelState.genesis spec with
    pages :=
      { start := 0, stop := spec.backbone_params.toNat, kind := .backbone, layer := -1, expert := -1,
        status := .active } ::
      genesis_experts_u64 spec spec.backbone_params
        ((List.range spec.n_layers.toNat).flatMap fun l =>
          (List.range spec.n_experts_initial.toNat).map fun e => (l, e)) }

def activate_u64 (spec : ModelSpec) (pages : List Page) (g : PendingGrowth) : List Page × Activation :=
  let start := UInt64.ofNat ((pages.getLast?.map (·.stop)).getD 0)
  let stop := start + UInt64.ofNat spec.expert_page_len
  let expert := ((pages.filter fun p => p.kind = .expert ∧ p.layer = g.layer).map (·.expert)).foldl max (-1) + 1
  (pages ++ [{ start := start.toNat, stop := stop.toNat, kind := .expert, layer := g.layer, expert, status := .active }],
   { page_id := pages.length, layer := g.layer, expert, trigger := g.trigger })

def activate_all_u64 (spec : ModelSpec) : List Page → List PendingGrowth → List Page × List Activation
  | pages, [] => (pages, [])
  | pages, g :: rest =>
    let (pages, a) := activate_u64 spec pages g
    let (pages, as) := activate_all_u64 spec pages rest
    (pages, a :: as)

def fold_window_u64 (params : GenesisParams) (prev_hash : String) (s : ModelState) : ModelState × List Activation :=
  let window_id := s.window_id + 1
  let due := s.pending_growth.filter fun g => g.window ≤ window_id
  let still := s.pending_growth.filter fun g => ¬ g.window ≤ window_id
  let (pages, activations) := activate_all_u64 params.spec s.pages due
  let s := { s with window_id, pending_growth := still, pages }
  let d := retarget_decide s.quota_4dp s.pinned_streak s.slack_streak (Int64.ofNat s.win_accepted.toNat)
    (window_staleness params s) params.quota_min_4dp params.quota_max_4dp params.target_deltas DAMP_DIV
    params.stale_ceiling_4dp params.k_sustain
  let s := apply_decision params prev_hash d s
  ({ s with win_accepted := 0, win_zero_scored := 0, win_score_sum := 0, win_scorers := [] }, activations)

def fold_u64 (state : ModelState) (params : GenesisParams) (height n_txs zero_scored : UInt64) (prev_hash : String)
    (score_sum : UInt64) (proposer : String) : ModelState × List Activation :=
  let s := fold_counters state params height n_txs zero_scored score_sum proposer
  if height > 0 ∧ height % params.retarget_window = 0 then fold_window_u64 params prev_hash s else (s, [])

end Sestrian
