import Sestrian.Node.Included
import Sestrian.Node.Lockstep

/-!
# Retention and a late delta

A node that keeps the bodies of one block lets the delta of that block in again. At the next block
retention takes the body out of memory, and the delta stays in the pool without it.
-/

open Check

namespace Sestrian

open BlockTree Bounded

section Any

variable [Crypto]

variable {t : BlockTree} {p : Parent} {known : List String} {b : Block} {staged : Staged}

namespace Node

variable {s : Node} {env : Env}

/-- Retention asks nobody about the bodies it deletes. -/
theorem prune_retained_strips {head_h floor : UInt64} (hretain : s.cfg.da_retain_blocks > 0)
    (hfloor : BlockTree.saturating_sub head_h s.cfg.da_retain_blocks = floor) (hnew : floor > s.da_pruned_to)
    {bh id : String} {sb : StoredBlock} (hget : s.blocks_full[bh]? = some sb)
    (habove : sb.header.height > s.da_pruned_to) (hbelow : sb.header.height ≤ floor) (hid : id ∈ sb.txids) :
    let s' := s.prune_retained head_h
    s'.cfg = s.cfg ∧ s'.pending = s.pending ∧ s'.delta_pool = s.delta_pool ∧ id ∉ s'.payloads := by
  subst hfloor
  unfold prune_retained
  simp only
  rw [if_pos hretain, if_pos hnew]
  generalize hdoomed : s.blocks_full.values.filter _ = doomed
  have hmem : id ∈ doomed.flatMap (·.txids) := by
    refine List.mem_flatMap.mpr ⟨sb, ?_, hid⟩
    rw [← hdoomed]
    exact List.mem_filter.mpr ⟨SumMap.mem_values.mpr ⟨bh, hget⟩, decide_eq_true ⟨habove, hbelow⟩⟩
  obtain ⟨st, hdelete⟩ := delete_bodies_spec (doomed.flatMap (·.txids)) s
  rw [hdelete]
  exact ⟨rfl, rfl, rfl, fun hin => (mem_without.mp hin).2 hmem⟩

variable [Serde]

/-- An empty block whose height makes an older block's bodies go. -/
theorem blk_strips {pool : Dict BackpropTx} {cfg : NodeConfig} {work pruned floor : UInt64}
    (hq : Calm s t pool cfg pruned) (h : Tip t p known)
    (hnew : b.hash ∉ known) (hdec : ∀ m, (empty_stored b.header).to_core_sparse m = some b)
    (hprev : b.header.prev_hash = t.head) (hwork : work = saturating_add p.work (max b.header.work 1))
    (hv : ∀ jurors, t.validate_at_base b { p with jurors } = .ok staged) (hhead : b.hash ≠ t.head)
    (horder : env.order [] = [])
    (hwin : ∀ (id : String) tx, pool[id]? = some tx → delta_in_window tx.base_height b.header.height)
    (hsize : pool.size ≤ MAX_DELTA_POOL) (hshort : b.header.height ≤ cfg.body_window + 1)
    (hretain : cfg.da_retain_blocks > 0)
    (hfloor : BlockTree.saturating_sub b.header.height cfg.da_retain_blocks = floor) (hdeep : floor > pruned)
    {bh id : String} {sb : StoredBlock} (hget : s.blocks_full[bh]? = some sb) (hother : b.hash ≠ bh)
    (habove : sb.header.height > pruned) (hbelow : sb.header.height ≤ floor) (hid : id ∈ sb.txids) :
    let s' := s.handle (env, .Blk (empty_stored b.header) none)
    s'.delta_pool = pool ∧ id ∉ s'.payloads := by
  obtain ⟨rfl, hpool, hpend, hcfg, hpruned⟩ := hq
  have hpre : s.preload (empty_stored b.header).txids = s := rfl
  have hinst : (s.install env (empty_stored b.header) none).2 = _ :=
    install_extend h hnew (hpre.symm ▸ hdec _) hprev hwork hv
  set s₁ : Node := { s with
    tree := s.tree.commit_staged b.hash b.header staged work
    blocks_full := s.blocks_full.insert b.hash (empty_stored b.header) } with hs₁
  have hheight : s₁.head_height = b.header.height := head_height_commit s.tree staged work rfl
  have hidle : s₁.evict_delta_pool env = s₁ := by
    refine evict_delta_pool_idle (fun k tx hk => ?_) ?_
    · rw [hheight]
      exact hwin k tx (hpool ▸ hk)
    · exact (congrArg _ hpool).trans_le hsize
  obtain ⟨apool, hadv⟩ : ∃ apool, s₁.on_head_advance env = _ := on_head_advance_unparked hpend
  rw [hidle, hheight] at hadv
  set s₂ : Node := { s₁ with account_pool := apool } with hs₂
  have hfull : s₂.blocks_full[bh]? = some sb := by
    rw [hs₂, hs₁]
    exact (SumMap.get_insert ..).trans ((if_neg hother).trans hget)
  obtain ⟨hcfg', hpend', hkept, hgone⟩ : (s₂.prune_retained b.header.height).cfg = _ ∧ _ :=
    prune_retained_strips (hcfg.symm ▸ hretain) (hcfg.symm ▸ hfloor) (hpruned.symm ▸ hdeep) hfull
      (hpruned.symm ▸ habove) hbelow hid
  have hprune : s₂.prune_old_bodies b.header.height = s₂.prune_retained b.header.height := by
    unfold prune_old_bodies
    simp only
    rw [if_pos]
    rw [hcfg', show s₂.cfg = cfg from hcfg]
    exact hshort
  have hinstalled : (s.install env (empty_stored b.header) none).2 = s₂.prune_retained b.header.height := by
    rw [hinst, hpre, installed_empty, ← hprune, ← hadv, if_pos]
    · rfl
    · rw [head_commit]
      exact hhead
  have hstep : s.handle (env, .Blk (empty_stored b.header) none) = s₂.prune_retained b.header.height := by
    rw [← hinstalled]
    refine retry_pending_none ?_ horder
    rw [hinstalled, hpend']
    exact hpend
  simp only
  rw [hstep]
  exact ⟨hkept.trans hpool, hgone⟩

end Node

end Any

open scoped Toy

namespace Toy

open Node

/-- The bodies of one block are kept. -/
def brief_cfg : NodeConfig := { da_retain_blocks := 1 }

def brief₀ : Node := .start owned node_key brief_cfg
def brief₁ : Node := brief₀.meet (env, .chain first)
def brief₂ : Node := brief₁.meet (env, .chain (.Dtx (.from_core (zero_tx (key 7))) zero_payload))
def brief₃ : Node := brief₂.meet (env, .chain (.Blk (empty_stored second.header) none))

/-- A block, its delta, and a block more. -/
def brief_run : List (Env × Event) :=
  [(env, .chain first), (env, .chain (.Dtx (.from_core (zero_tx (key 7))) zero_payload)),
    (env, .chain (.Blk (empty_stored second.header) none))]

theorem env_fair : env.Fair := fun ks => List.Perm.refl ks

theorem brief_calm₁ : Calm brief₁ owned₁ ∅ brief_cfg 0 ∧ brief₁.seen = brief₀.seen ∧
    brief₁.blocks_full = brief₀.blocks_full.insert zero_stored.hash zero_stored := by
  have hcalm : Calm brief₀ owned ∅ brief_cfg 0 := ⟨rfl, rfl, rfl, rfl, rfl⟩
  have hprev : zero_block.header.prev_hash = owned.head := rfl
  have hstep : brief₁ = brief₀.handle_sync_batch env "peer" [zero_stored] [(zero_id, zero_payload)] := rfl
  have hshallow : brief₀.Shallow zero_block.header.height := by
    refine ⟨fun _ => ?_, zero_low⟩
    decide
  rw [hstep]
  exact sync_calm hcalm rfl rfl owned_tip zero_txids rfl serde_zero (fun m hm => zero_decodes hm)
    (fun hm => zero_ne (List.mem_singleton.mp hm)) hprev zero_work owned_takes zero_ne hshallow rfl

theorem brief_calm₂ : Calm brief₂ marked₁ zero_pool brief_cfg 0 ∧ brief₂.blocks_full = brief₁.blocks_full := by
  have hstep : brief₂ = brief₁.handle_dtx env (.from_core (zero_tx (key 7))) zero_payload := rfl
  have hadm : brief₁.admits (zero_tx (key 7)) zero_payload := by
    refine zero_admits brief_calm₁.1.tree ?_
    rw [brief_calm₁.2.1]
    exact Std.ExtTreeSet.not_mem_empty
  rw [hstep]
  exact dtx_calm brief_calm₁.1 (to_core_from_core _) (by decide) hadm rfl

/-- The second block takes the body of the pooled delta. -/
theorem body_stripped : zero_id ∈ brief₃.delta_pool ∧ zero_id ∉ brief₃.payloads := by
  have hstep : brief₃ = brief₂.handle (env, .Blk (empty_stored second.header) none) := rfl
  have hfloor : BlockTree.saturating_sub second.header.height brief_cfg.da_retain_blocks = 1 := by
    rw [second_height]
    rfl
  have hother : second.hash ≠ zero_stored.hash := List.ne_of_not_mem_cons second_ne.1
  have hrecorded : brief₂.blocks_full[zero_stored.hash]? = some zero_stored := by
    rw [brief_calm₂.2, brief_calm₁.2.2, SumMap.get_insert, if_pos rfl]
  have habove : zero_stored.header.height > 0 := by decide
  have hbelow : zero_stored.header.height ≤ 1 := by decide
  have hin : zero_id ∈ zero_stored.txids := by
    rw [zero_txids]
    exact List.mem_singleton_self _
  obtain ⟨hpool, hgone⟩ : brief₃.delta_pool = zero_pool ∧ zero_id ∉ brief₃.payloads := by
    rw [hstep]
    exact blk_strips brief_calm₂.1 (tip₁.verified _) second_ne.1 second_decodes second_prev second_work second_valid
      second_moves rfl zero_young zero_pool_small second_low (by decide) hfloor (by decide) hrecorded hother habove
      hbelow hin
  refine ⟨?_, hgone⟩
  rw [hpool, zero_pool, zero_id]
  exact Std.ExtTreeMap.mem_insert_self

theorem brief_run_ends : brief₀.live brief_run = brief₃ := by
  unfold brief_run live brief₃ brief₂ brief₁
  rw [List.foldl_cons, List.foldl_cons, List.foldl_cons, List.foldl_nil]

/-- An archive node has no retention to fear. -/
def calm_run : List (Env × Event) := late_run.map fun e => (e.1, .chain e.2)

theorem calm_run_careful : AllCareful node₀ calm_run := by
  have hfirst : node₀.meet (env, .chain first) = node₁ := rfl
  have hcfg : node₁.cfg.da_retain_blocks = 0 := by
    rw [quiet₁.1.cfg]
  refine ⟨?_, ?_, ?_, ?_, trivial⟩
  · unfold first
    exact trivial
  · rw [hfirst]
    exact fun _ _ => .inr (.inl hcfg)
  · exact trivial
  · exact trivial

end Toy

theorem mempools_in_lockstep_archive :
    Node.Lockstep ((Node.start Toy.owned Toy.node_key {}).live (Toy.calm_run.take 4)) := by
  have hfair : ∀ e ∈ Toy.calm_run, e.1.Fair := by
    intro e he
    obtain ⟨m, hm, rfl⟩ := List.mem_map.mp he
    have hall : ∀ m ∈ Toy.late_run, m.1 = Toy.env := by simp [Toy.late_run]
    rw [hall m hm]
    exact Toy.env_fair
  exact Node.mempools_in_lockstep Toy.owned Toy.node_key {} Toy.calm_run hfair Toy.calm_run_careful 4

/-- The delta of the first block waits in the pool, and its body went with the first block's. -/
theorem pooled_delta_stripped : (∀ e ∈ Toy.brief_run, e.1.Fair) ∧ ∃ id ∈ (Toy.brief₀.live Toy.brief_run).delta_pool,
    id ∉ (Toy.brief₀.live Toy.brief_run).payloads := by
  have hall : ∀ e ∈ Toy.brief_run, e.1 = Toy.env := by simp [Toy.brief_run]
  rw [Toy.brief_run_ends]
  exact ⟨fun e he => hall e he ▸ Toy.env_fair, Toy.zero_id, Toy.body_stripped⟩

end Sestrian
