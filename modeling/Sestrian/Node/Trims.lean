import Sestrian.Code.Events
import Sestrian.Lib.Bounded
import Sestrian.Node.Kept

/-!
# What leaves the mempools

The pool, its scores, its sketches and its bodies stay aligned when entries leave. Retention would
break this where it deletes the body of a pooled delta, so the invariant also says which recorded
blocks may hold a delta of the pool.
-/

namespace Sestrian

open Bounded

variable [Crypto]

namespace Node

variable {s s' s'' : Node} {env : Env}

/-! ## The invariant -/

/-- Before retention reaches a recorded block with this delta, the delta is too old for the pool. -/
def Apart (s : Node) (id : String) (base_height : UInt64) : Prop :=
  s.cfg.da_retain_blocks = 0 ∨ ∀ (bh : String) sb, s.blocks_full[bh]? = some sb → id ∈ sb.txids →
    sb.header.height ≤ s.da_pruned_to ∨
      base_height.toNat + 2 < sb.header.height.toNat + s.cfg.da_retain_blocks.toNat

structure Aligned (s : Node) : Prop where
  scores : ∀ id ∈ s.delta_scores, id ∈ s.delta_pool
  sketches : ∀ id ∈ s.delta_sketches, id ∈ s.delta_pool
  bodies : ∀ id ∈ s.delta_pool, id ∈ s.payloads
  ring : Ring MAX_SEEN s.seen s.seen_order
  apart : ∀ (id : String) t, s.delta_pool[id]? = some t → s.Apart id t.base_height

structure Orderly (s : Node) : Prop where
  aligned : Aligned s
  deltas : s.delta_pool.size ≤ MAX_DELTA_POOL
  accounts : s.account_pool.size ≤ MAX_ACCOUNT_POOL

/-- What the invariant reads. -/
structure Mempool where
  delta_pool : Dict BackpropTx
  delta_scores : Dict UInt64
  delta_sketches : Dict (List Int32)
  payloads : Dict Payload
  account_pool : Dict AccountTx
  seen : StrSet
  seen_order : List String
  blocks_full : Dict StoredBlock
  da_pruned_to : UInt64
  cfg : NodeConfig

def mempool (s : Node) : Mempool where
  delta_pool := s.delta_pool
  delta_scores := s.delta_scores
  delta_sketches := s.delta_sketches
  payloads := s.payloads
  account_pool := s.account_pool
  seen := s.seen
  seen_order := s.seen_order
  blocks_full := s.blocks_full
  da_pruned_to := s.da_pruned_to
  cfg := s.cfg

/-! ## Steps that only take away -/

/-- Entries of the pool may go, with their scores and sketches. The bodies of the others stay. -/
structure Trims (s s' : Node) : Prop where
  cfg : s'.cfg = s.cfg
  full : s'.blocks_full = s.blocks_full
  pruned : s.da_pruned_to ≤ s'.da_pruned_to
  pool : ∀ id : String, s'.delta_pool[id]? = s.delta_pool[id]? ∨ s'.delta_pool[id]? = none
  scores : ∀ id ∈ s'.delta_scores, id ∈ s.delta_scores ∧ (id ∈ s.delta_pool → id ∈ s'.delta_pool)
  sketches : ∀ id ∈ s'.delta_sketches, id ∈ s.delta_sketches ∧ (id ∈ s.delta_pool → id ∈ s'.delta_pool)
  bodies : ∀ id ∈ s'.delta_pool, id ∈ s.payloads → id ∈ s'.payloads
  ring : Ring MAX_SEEN s.seen s.seen_order → Ring MAX_SEEN s'.seen s'.seen_order
  deltas : s'.delta_pool.size ≤ s.delta_pool.size
  accounts : s'.account_pool.size ≤ s.account_pool.size

namespace Trims

omit [Crypto] in
theorem mem (h : Trims s s') {id : String} (hm : id ∈ s'.delta_pool) : id ∈ s.delta_pool := by
  rw [mem_pool_iff] at hm ⊢
  rcases h.pool id with heq | hnone
  · rwa [heq] at hm
  · exact absurd hnone hm

omit [Crypto] in
theorem get (h : Trims s s') {id : String} {t : BackpropTx} (hget : s'.delta_pool[id]? = some t) :
    s.delta_pool[id]? = some t := by
  rcases h.pool id with heq | hnone
  · rwa [heq] at hget
  · rw [hnone] at hget
    cases hget

omit [Crypto] in
theorem trans (h : Trims s s') (h' : Trims s' s'') : Trims s s'' where
  cfg := h'.cfg.trans h.cfg
  full := h'.full.trans h.full
  pruned := UInt64.le_trans h.pruned h'.pruned
  pool id := by
    rcases h'.pool id with heq | hnone
    · rw [heq]
      exact h.pool id
    · exact .inr hnone
  scores id hid := by
    obtain ⟨hid', hin'⟩ := h'.scores id hid
    obtain ⟨hid, hin⟩ := h.scores id hid'
    exact ⟨hid, fun hp => hin' (hin hp)⟩
  sketches id hid := by
    obtain ⟨hid', hin'⟩ := h'.sketches id hid
    obtain ⟨hid, hin⟩ := h.sketches id hid'
    exact ⟨hid, fun hp => hin' (hin hp)⟩
  bodies id hid hb := h'.bodies id hid (h.bodies id (h'.mem hid) hb)
  ring hr := h'.ring (h.ring hr)
  deltas := h'.deltas.trans h.deltas
  accounts := h'.accounts.trans h.accounts

omit [Crypto] in
theorem refl (s : Node) : Trims s s :=
  ⟨rfl, rfl, UInt64.le_refl _, fun _ => .inl rfl, fun _ h => ⟨h, id⟩, fun _ h => ⟨h, id⟩, fun _ _ h => h, id, le_rfl, le_rfl⟩

omit [Crypto] in
/-- A step that touches no mempool. -/
theorem of_eq (h : s'.mempool = s.mempool) : Trims s s' := by
  have hpool : s'.delta_pool = s.delta_pool := congrArg Mempool.delta_pool h
  have hscores : s'.delta_scores = s.delta_scores := congrArg Mempool.delta_scores h
  have hsketches : s'.delta_sketches = s.delta_sketches := congrArg Mempool.delta_sketches h
  have hbodies : s'.payloads = s.payloads := congrArg Mempool.payloads h
  have haccounts : s'.account_pool = s.account_pool := congrArg Mempool.account_pool h
  have hseen : s'.seen = s.seen := congrArg Mempool.seen h
  have horder : s'.seen_order = s.seen_order := congrArg Mempool.seen_order h
  have hpruned : s'.da_pruned_to = s.da_pruned_to := congrArg Mempool.da_pruned_to h
  constructor
  · exact congrArg Mempool.cfg h
  · exact congrArg Mempool.blocks_full h
  · rw [hpruned]
    exact UInt64.le_refl _
  · exact fun id => .inl (by rw [hpool])
  · rw [hscores, hpool]
    exact fun _ h => ⟨h, id⟩
  · rw [hsketches, hpool]
    exact fun _ h => ⟨h, id⟩
  · rw [hbodies]
    exact fun _ _ h => h
  · rw [hseen, horder]
    exact id
  · rw [hpool]
  · rw [haccounts]

omit [Crypto] in
/-- More bodies do no harm. -/
theorem of_payloads {m : Dict Payload} (h : ∀ id ∈ s.delta_pool, id ∈ s.payloads → id ∈ m) :
    Trims s { s with payloads := m } :=
  ⟨rfl, rfl, UInt64.le_refl _, fun _ => .inl rfl, fun _ h => ⟨h, id⟩, fun _ h => ⟨h, id⟩, h, id, le_rfl, le_rfl⟩

omit [Crypto] in
/-- Over a list of steps. -/
theorem foldl {α : Type} {f : Node → α → Node} (h : ∀ s a, Trims s (f s a)) (l : List α) (s : Node) :
    Trims s (l.foldl f s) := by
  induction l generalizing s with
  | nil => exact refl s
  | cons a l ih => exact (h s a).trans (ih _)

end Trims

theorem Apart.mono {id : String} {base_height : UInt64} (h : s.Apart id base_height) (hcfg : s'.cfg = s.cfg)
    (hfull : s'.blocks_full = s.blocks_full) (hpruned : s.da_pruned_to ≤ s'.da_pruned_to) : s'.Apart id base_height := by
  unfold Apart
  rw [hcfg, hfull]
  exact h.imp_right fun hall bh sb hsb hid => (hall bh sb hsb hid).imp_left fun hle => UInt64.le_trans hle hpruned

theorem Aligned.trims (h : Aligned s) (ht : Trims s s') : Aligned s' where
  scores id hid := by
    obtain ⟨hid, hin⟩ := ht.scores id hid
    exact hin (h.scores id hid)
  sketches id hid := by
    obtain ⟨hid, hin⟩ := ht.sketches id hid
    exact hin (h.sketches id hid)
  bodies id hid := ht.bodies id hid (h.bodies id (ht.mem hid))
  ring := ht.ring h.ring
  apart id t hget := (h.apart id t (ht.get hget)).mono ht.cfg ht.full ht.pruned

theorem Orderly.trims (h : Orderly s) (ht : Trims s s') : Orderly s' :=
  ⟨h.aligned.trims ht, ht.deltas.trans h.deltas, ht.accounts.trans h.accounts⟩

/-! ## Eviction -/

omit [Crypto] in
theorem drop_all_maps (ids : List String) (s : Node) :
    (s.drop_all ids).mempool = { s.mempool with
      delta_pool := without s.delta_pool ids
      delta_scores := without s.delta_scores ids
      delta_sketches := without s.delta_sketches ids
      payloads := without s.payloads ids } := by
  induction ids generalizing s with
  | nil => rfl
  | cons id ids ih => exact ih (s.drop_pool_delta id)

omit [Crypto] in
theorem drop_all_delta_pool (ids : List String) (s : Node) : (s.drop_all ids).delta_pool = without s.delta_pool ids := by
  have h := drop_all_maps ids s
  exact congrArg Mempool.delta_pool h

omit [Crypto] in
/-- Some deltas leave the pool, with what belongs to them. -/
theorem Trims.of_without (ids : List String) (m : Dict Payload) (h : s'.mempool = { s.mempool with
      delta_pool := without s.delta_pool ids
      delta_scores := without s.delta_scores ids
      delta_sketches := without s.delta_sketches ids
      payloads := m
      account_pool := s'.account_pool })
    (hbodies : ∀ id ∉ ids, id ∈ s.payloads → id ∈ m) (haccounts : s'.account_pool.size ≤ s.account_pool.size) :
    Trims s s' := by
  have hpool : s'.delta_pool = without s.delta_pool ids := congrArg Mempool.delta_pool h
  have hscores : s'.delta_scores = without s.delta_scores ids := congrArg Mempool.delta_scores h
  have hsketches : s'.delta_sketches = without s.delta_sketches ids := congrArg Mempool.delta_sketches h
  have hpayloads : s'.payloads = m := congrArg Mempool.payloads h
  have hseen : s'.seen = s.seen := congrArg Mempool.seen h
  have horder : s'.seen_order = s.seen_order := congrArg Mempool.seen_order h
  have hpruned : s'.da_pruned_to = s.da_pruned_to := congrArg Mempool.da_pruned_to h
  constructor
  · exact congrArg Mempool.cfg h
  · exact congrArg Mempool.blocks_full h
  · rw [hpruned]
    exact UInt64.le_refl _
  · intro id
    rw [hpool, get_without]
    split
    · exact .inr rfl
    · exact .inl rfl
  · intro id hid
    rw [hscores, mem_without] at hid
    rw [hpool, mem_without]
    exact ⟨hid.1, fun hp => ⟨hp, hid.2⟩⟩
  · intro id hid
    rw [hsketches, mem_without] at hid
    rw [hpool, mem_without]
    exact ⟨hid.1, fun hp => ⟨hp, hid.2⟩⟩
  · intro id hid hb
    rw [hpool, mem_without] at hid
    rw [hpayloads]
    exact hbodies id hid.2 hb
  · rw [hseen, horder]
    exact id
  · rw [hpool]
    exact size_without_le _ _
  · exact haccounts

omit [Crypto] in
theorem drop_all_trims (ids : List String) (s : Node) : Trims s (s.drop_all ids) := by
  have h := drop_all_maps ids s
  have haccounts : (s.drop_all ids).account_pool = s.account_pool := congrArg Mempool.account_pool h
  refine .of_without ids (without s.payloads ids) ?_ (fun id hid hb => mem_without.mpr ⟨hb, hid⟩) ?_
  · rw [haccounts]
    exact h
  · rw [haccounts]

omit [Crypto] in
theorem evict_delta_pool_trims (env : Env) (s : Node) : Trims s (s.evict_delta_pool env) := by
  unfold evict_delta_pool
  simp only
  split
  · exact (drop_all_trims _ s).trans (drop_all_trims _ _)
  · exact drop_all_trims _ s

omit [Crypto] in
/-- What eviction leaves is in the window of the head. -/
theorem evicted_in_window {id : String} {t : BackpropTx} (h : (s.evict_delta_pool env).delta_pool[id]? = some t) :
    delta_in_window t.base_height s.head_height := by
  have hstale : (s.drop_all s.stale_deltas).delta_pool[id]? = some t := by
    unfold evict_delta_pool at h
    simp only at h
    split at h
    · exact (drop_all_trims _ _).get h
    · exact h
  rw [drop_all_pool] at hstale
  split at hstale
  · cases hstale
  · next hid =>
    by_contra hout
    refine hid (List.mem_map.mpr ⟨(id, t), List.mem_filter.mpr ⟨?_, by simpa using hout⟩, rfl⟩)
    exact Std.ExtTreeMap.mem_toList_iff_getElem?_eq_some.mpr hstale

section Caps

variable {ν β : Type} {m : Dict ν}

omit [Crypto] in
/-- The entries past a cap, in any order of their heights: cutting them keeps the cap. -/
theorem size_cut (hfair : env.Fair) (f : ν → β) (r : String × β → String × β → Prop) [DecidableRel r] (cap : Nat) :
    (without m (((((env.order m.keys).filterMap fun id => m[id]?.map fun t => (id, f t)).insertionSort r).take
      (m.size - cap)).map (·.1))).size ≤ cap := by
  set rows := (env.order m.keys).filterMap fun id => m[id]?.map fun t => (id, f t) with hrows
  have hkeys : rows.map (·.1) = env.order m.keys := by
    rw [hrows, List.map_filterMap]
    refine (List.filterMap_congr fun id hid => ?_).trans (List.filterMap_some ..)
    obtain ⟨t, ht⟩ := Option.isSome_iff_exists.mp
      (Std.ExtTreeMap.mem_iff_isSome_getElem?.mp (Std.ExtTreeMap.mem_keys.mp ((hfair m.keys).mem_iff.mp hid)))
    simp [ht]
  have hnodup : (env.order m.keys).Nodup :=
    (hfair m.keys).nodup_iff.mpr (Std.ExtTreeMap.distinct_keys.imp fun h => by simpa using h)
  have hsorted : ((rows.insertionSort r).map (·.1)).Perm (env.order m.keys) := by
    rw [← hkeys]
    exact (List.perm_insertionSort r rows).map _
  have hlen : (rows.insertionSort r).length = m.size := by
    rw [← List.length_map (f := (·.1)), hsorted.length_eq, (hfair m.keys).length_eq, Std.ExtTreeMap.length_keys]
  rw [List.map_take, size_without]
  · rw [List.length_take, List.length_map, hlen]
    omega
  · exact (List.take_sublist ..).nodup (hsorted.nodup_iff.mpr hnodup)
  · intro id hid
    have hid := (hfair m.keys).mem_iff.mp (hsorted.mem_iff.mp (List.mem_of_mem_take hid))
    exact Std.ExtTreeMap.mem_keys.mp hid

end Caps

omit [Crypto] in
theorem evict_delta_pool_cap (hfair : env.Fair) (s : Node) :
    (s.evict_delta_pool env).delta_pool.size ≤ MAX_DELTA_POOL := by
  unfold evict_delta_pool
  simp only
  split
  · generalize s.drop_all s.stale_deltas = s
    rw [drop_all_delta_pool, excess_deltas]
    generalize MAX_DELTA_POOL = cap
    exact size_cut hfair BackpropTx.base_height (fun a b => a.2 ≤ b.2) cap
  · next hsmall => exact not_lt.mp hsmall

/-- Stale account transactions go, then those past the cap. -/
theorem evict_account_pool_spec (env : Env) (s : Node) : ∃ pool, s.evict_account_pool env = { s with account_pool := pool } ∧
    pool.size ≤ s.account_pool.size ∧ (env.Fair → pool.size ≤ MAX_ACCOUNT_POOL) := by
  have hfold {β : Type} (l : List (String × β)) (m : Dict AccountTx) :
      l.foldl (fun m e => m.erase e.1) m = without m (l.map (·.1)) := by
    rw [without, List.foldl_map]
  unfold evict_account_pool
  simp only [hfold]
  generalize MAX_ACCOUNT_POOL = cap
  refine ⟨_, rfl, ?_, fun hfair => size_cut hfair AccountTx.nonce (fun a b => b.2 ≤ a.2) cap⟩
  exact (size_without_le _ _).trans (size_without_le _ _)

theorem evict_account_pool_trims (env : Env) (s : Node) : Trims s (s.evict_account_pool env) := by
  obtain ⟨pool, hstep, hsize, -⟩ := evict_account_pool_spec env s
  rw [hstep]
  exact ⟨rfl, rfl, UInt64.le_refl _, fun _ => .inl rfl, fun _ h => ⟨h, id⟩, fun _ h => ⟨h, id⟩, fun _ _ h => h, id, le_rfl, hsize⟩

omit [Crypto] in
theorem mark_seen_trims (s : Node) (txid : String) : Trims s (s.mark_seen txid) := by
  unfold mark_seen
  split
  · exact .refl s
  · next hnew =>
    refine ⟨rfl, rfl, UInt64.le_refl _, fun _ => .inl rfl, fun _ h => ⟨h, id⟩, fun _ h => ⟨h, id⟩, fun _ _ h => h,
      fun h => ?_, le_rfl, le_rfl⟩
    have hpush := h.push hnew
    generalize MAX_SEEN = cap at hpush ⊢
    exact hpush

/-! ## Parked blocks and bodies -/

omit [Crypto] in
theorem queue_pending_trims (env : Env) (s : Node) (bh : String) (sb : StoredBlock) (peer : PeerId) :
    Trims s (s.queue_pending env bh sb peer) := by
  unfold queue_pending
  simp only
  split
  · split <;> exact .of_eq rfl
  · exact .of_eq rfl

theorem park_trims (env : Env) (s : Node) (sb : StoredBlock) (source : Option PeerId) :
    Trims s (s.park env sb source) := by
  cases source with
  | none => exact .refl s
  | some peer => exact queue_pending_trims env s sb.hash sb peer

/-- Only bodies outside the pool leave with a parked block. -/
theorem drop_pending_trims (env : Env) (s : Node) (k : String) : Trims s (s.drop_pending env k) := by
  unfold drop_pending
  split
  · simp only
    refine (Trims.of_payloads (m := without s.payloads _) fun id hid hb => ?_).trans (.of_eq rfl)
    refine mem_without.mpr ⟨hb, fun hgone => ?_⟩
    have hout := (List.mem_filter.mp hgone).2
    simp [Std.ExtTreeMap.contains_iff_mem.mpr hid] at hout
  · exact .refl s

omit [Crypto] in
theorem delete_bodies_spec (ids : List String) (s : Node) : ∃ st, s.delete_bodies ids =
    { s with store := st, payloads := without s.payloads ids } := by
  induction ids generalizing s with
  | nil => exact ⟨s.store, rfl⟩
  | cons id ids ih => exact ih _

omit [Crypto] in
theorem window_height {base_height head_h : UInt64} (h : delta_in_window base_height head_h) :
    head_h.toNat ≤ base_height.toNat + 2 := by
  unfold delta_in_window DELTA_STALE_SLACK DELTA_FUTURE_WINDOW at h
  simp only [Bool.and_eq_true, decide_eq_true_eq, ge_iff_le, UInt64.le_iff_toNat_le, UInt64.toNat_add] at h
  have := base_height.toNat_lt
  have := head_h.toNat_lt
  have htwo : (2 : UInt64).toNat = 2 := rfl
  have hfour : (4 : UInt64).toNat = 4 := rfl
  omega

omit [Crypto] in
theorem retained_depth {head_h retain pruned height : UInt64} (hfloor : BlockTree.saturating_sub head_h retain > pruned)
    (hle : height ≤ BlockTree.saturating_sub head_h retain) : height.toNat + retain.toNat ≤ head_h.toNat := by
  unfold BlockTree.saturating_sub at hfloor hle
  split at hfloor
  · next hr =>
    rw [if_pos hr, UInt64.le_iff_toNat_le, UInt64.toNat_sub_of_le _ _ hr] at hle
    have := UInt64.le_iff_toNat_le.mp hr
    omega
  · exact absurd hfloor (UInt64.not_lt.mpr (UInt64.zero_le))

/-- Retention spares the pool, once everything stale has left it. -/
theorem prune_retained_trims {head_h : UInt64} (h : Aligned s)
    (hwin : ∀ (id : String) t, s.delta_pool[id]? = some t → delta_in_window t.base_height head_h) :
    Trims s (s.prune_retained head_h) := by
  unfold prune_retained
  split
  · next hretain =>
    simp only
    split
    · next hfloor =>
      set floor := BlockTree.saturating_sub head_h s.cfg.da_retain_blocks with hf
      generalize hdoomed : s.blocks_full.values.filter _ = doomed
      obtain ⟨st, hdelete⟩ := delete_bodies_spec (doomed.flatMap (·.txids)) s
      rw [hdelete]
      have hspared : ∀ id ∈ s.delta_pool, id ∉ doomed.flatMap (·.txids) := by
        intro id hid hgone
        obtain ⟨sb, hsb, hin⟩ := List.mem_flatMap.mp hgone
        rw [← hdoomed] at hsb
        obtain ⟨hvalue, hheight⟩ := List.mem_filter.mp hsb
        obtain ⟨bh, hbh⟩ := SumMap.mem_values.mp hvalue
        obtain ⟨t, ht⟩ := Option.isSome_iff_exists.mp (Std.ExtTreeMap.mem_iff_isSome_getElem?.mp hid)
        obtain ⟨habove, hbelow⟩ := of_decide_eq_true hheight
        have hdeep := retained_depth hfloor hbelow
        have hyoung := window_height (hwin id t ht)
        rcases h.apart id t ht with h0 | hall
        · rw [h0] at hretain
          exact absurd hretain (UInt64.lt_irrefl _)
        · rcases hall bh sb hbh hin with hle | hlt
          · exact UInt64.not_le.mpr habove hle
          · omega
      have hbodies : Trims s { s with payloads := without s.payloads (doomed.flatMap (·.txids)) } :=
        .of_payloads fun id hid hb => mem_without.mpr ⟨hb, hspared id hid⟩
      refine hbodies.trans ⟨rfl, rfl, ?_, fun _ => .inl rfl, fun _ h => ⟨h, id⟩, fun _ h => ⟨h, id⟩, fun _ _ h => h, id,
        le_rfl, le_rfl⟩
      exact UInt64.le_of_lt hfloor
    · exact .refl s
  · exact .refl s

theorem prune_old_bodies_trims {head_h : UInt64} (h : Aligned s)
    (hwin : ∀ (id : String) t, s.delta_pool[id]? = some t → delta_in_window t.base_height head_h) :
    Trims s (s.prune_old_bodies head_h) := by
  have hretained := prune_retained_trims h hwin
  unfold prune_old_bodies
  simp only
  split
  · exact hretained
  · split
    · exact hretained.trans (.of_eq rfl)
    · exact hretained

theorem on_head_advance_trims (env : Env) (h : Aligned s) : Trims s (s.on_head_advance env) := by
  have hdeltas := evict_delta_pool_trims env s
  have hrest := (evict_account_pool_trims env (s.evict_delta_pool env)).trans
    (Trims.foldl (drop_pending_trims env) ((s.evict_delta_pool env).evict_account_pool env).pending.keys _)
  have hbefore := hdeltas.trans hrest
  exact hbefore.trans (prune_old_bodies_trims (h.trims hbefore) fun id t ht => evicted_in_window (hrest.get ht))

variable [Serde]

omit [Crypto] in
theorem preload_trims (s : Node) (ids : List String) : Trims s (s.preload ids) := by
  refine Trims.foldl (fun s id => ?_) ids s
  split
  · exact .refl s
  · split
    · exact .of_payloads fun k _ hk => Std.ExtTreeMap.mem_insert.mpr (.inr hk)
    · exact .refl s

omit [Crypto] in
theorem recover_trims (s : Node) (ids : List String) : Trims s (s.recover ids) := by
  refine Trims.foldl (fun s id => ?_) ids s
  split
  · exact .refl s
  · split
    · exact .of_payloads fun k _ hk => Std.ExtTreeMap.mem_insert.mpr (.inr hk)
    · exact .refl s

end Node

end Sestrian
