import Sestrian.Tree.Empty
import Sestrian.Tree.Growth

/-!
# A fork that grows on both sides

Two proposers extend genesis with empty blocks, each its own branch. Every block closes a
window, the second one of a branch schedules a page and the third one appends it. The new page
takes its weights from the hash of the first block, so the branches give it different ones.
-/

open Walk Check

namespace Sestrian.Toy

open Aggregate Pages BlockTree
open scoped Toy

def grow_params : GenesisParams :=
  { spec, retarget_window := 1, target_deltas := 0, quota_min_4dp := 10000, quota_max_4dp := 10000, k_sustain := 2,
    announce_lead := 1 }

def root : BlockTree := .new [5] none grow_params

/-! ## A block and what it gives to its children -/

structure Spot where
  hash : String
  weights : List Int64
  parent : Parent
  line : List String

namespace Spot

/-- The tree with canon moved to the block. -/
def tree (s : Spot) : BlockTree :=
  { root with canon := s.weights, page_leaves := leaves_for s.weights s.parent.model }

/-- The empty block that the holder of the key puts on top. -/
def block (s : Spot) (pk : ByteArr 32) : Block := block_by s.tree s.parent s.hash pk

theorem block_prev (s : Spot) (pk : ByteArr 32) : (s.block pk).header.prev_hash = s.hash := rfl

def next (s : Spot) (pk : ByteArr 32) (hash : String) : Spot :=
  let staged := empty_staged s.tree s.parent (s.block pk)
  { hash
    weights := s.weights ++ staged.init_pages.flatten
    parent :=
      { model := staged.post_model, ledger := staged.led, height := s.parent.height + 1,
        work := s.parent.work + 1, jurors := ∅ }
    line := hash :: s.line }

end Spot

/-- The hash with this number. -/
def hash_of (n : Nat) : String := hex_encode (hash_bytes n)

def genesis : Spot :=
  { hash := hash_of 0x968839f5
    weights := [5]
    parent := { model := ModelState.genesis spec, ledger := TokenLedger.new, height := 0, work := 0, jurors := ∅ }
    line := [hash_of 0x968839f5] }

/-! ## A node that knows such blocks -/

variable {n : Logged} {S : String → List Int64 × ModelState} {hd s : Spot} {ss : List Spot}
  {cs : StrSet}

structure Holds (n : Logged) (S : String → List Int64 × ModelState) (s : Spot) : Prop where
  known : s.hash ∈ n.tree.blocks
  state : S s.hash = (s.weights, s.parent.model)
  entries : ∃ p, n.tree.parent_entries s.hash = .ok p ∧ p.ledger = s.parent.ledger ∧
    p.height = s.parent.height ∧ p.work = s.parent.work
  path : Path n.tree.parent n.tree.genesis_hash s.hash s.line

/-- The node knows these blocks and no others, and `hd` is the head. -/
structure Knows (n : Logged) (S : String → List Int64 × ModelState) (hd : Spot) (ss : List Spot)
    (cs : StrSet) : Prop where
  coherent : Coherent [5] grow_params n S
  unpruned : n.tree.Unpruned
  contributor : n.tree.data_contributor = none
  head : n.tree.head = hd.hash
  head_mem : hd ∈ ss
  leaves : n.tree.page_leaves = leaves_for hd.weights hd.parent.model
  holds : ∀ s ∈ ss, Holds n S s
  only : ∀ h, h ∈ n.tree.blocks ∨ h ∈ n.tree.cum_work → ∃ s ∈ ss, s.hash = h
  convicted : n.tree.convicted = cs
  idle : ∀ h : String, n.tree.redo[h]?.getD [] = []

/-- The pages that both have are the same pages. -/
def Shares (hd s : Spot) : Prop :=
  ∀ x ∈ (leaves_for hd.weights hd.parent.model).zip (leaves_for s.weights s.parent.model), x.1 = x.2

instance (hd s : Spot) : Decidable (Shares hd s) := inferInstanceAs (Decidable (∀ x ∈ _, _))

theorem shares_self (s : Spot) : Shares s s := by
  unfold Shares
  generalize leaves_for s.weights s.parent.model = l
  intro x hx
  induction l with
  | nil => simp at hx
  | cons a l ih =>
    rcases List.mem_cons.mp hx with rfl | hx
    · rfl
    · exact ih hx

theorem Knows.untouched (h : Knows n S hd ss cs) (m : ModelState) (walked : List String) :
    n.tree.touched_pages m walked = [] := by
  simp [touched_pages, h.idle]

/-- Canon moved to a block that shares its pages with the head has the right leaves. -/
theorem Knows.leaves_at (h : Knows n S hd ss cs) (hs : s ∈ ss) (hshare : Shares hd s) :
    n.tree.leaves_at S s.hash = leaves_for s.weights s.parent.model := by
  have hsS := (h.holds s hs).state
  unfold BlockTree.leaves_at
  split
  · next he =>
    have hhd := (h.holds hd h.head_mem).state
    rw [← h.head, ← he, hsS] at hhd
    obtain ⟨hw, hm⟩ := Prod.mk.inj hhd
    rw [h.leaves, hw, hm]
  · obtain ⟨up, down, hf⟩ := fork_walk_known h.coherent.shape (h.holds s hs).known
    simp only [hf, rewound_leaves, h.untouched, hsS]
    refine refresh_leaves_eq _ _ _ _ fun pid page hpage hlt _ => ?_
    rw [h.leaves] at hlt ⊢
    rw [List.getElem?_eq_getElem hlt]
    refine congrArg some (hshare (_, page_leaf s.weights page) (List.mem_of_getElem? (i := pid) ?_))
    rw [List.getElem?_zip_eq_some]
    exact ⟨List.getElem?_eq_getElem hlt, by simp [leaves_for, hpage]⟩

/-- What a rewind to one of the blocks leaves: no page counts as touched. -/
theorem Knows.rewound (h : Knows n S hd ss cs) (hs : s ∈ ss) :
    ∃ plan t', n.tree.rewind_to s.hash = (.ok plan, t') ∧ n.tree.model[s.hash]? = some s.parent.model ∧
      t'.canon = s.weights ∧ t'.page_leaves =
        refresh_leaves s.weights (leaves_for hd.weights hd.parent.model) s.parent.model [] := by
  have hold := h.holds s hs
  obtain ⟨up, down, -, hr⟩ := h.coherent.rewind_known h.unpruned hold.known
  refine ⟨_, _, hr, ?_, ?_, ?_⟩
  · rw [h.coherent.model _ hold.known, hold.state]
  · exact congrArg Prod.fst hold.state
  · simp only [rewound_leaves, h.untouched, h.leaves, hold.state]

/-- An empty block depends on the weights, the leaves and the settings of the tree, and on the
model, the ledger and the height of its parent. -/
theorem block_by_congr (t t' : BlockTree) {p p' : Parent} (prev : String) (pk : ByteArr 32)
    (hcanon : t'.canon = t.canon) (hleaves : t'.page_leaves = t.page_leaves) (hparams : t'.params = t.params)
    (hdc : t'.data_contributor = t.data_contributor) (hm : p'.model = p.model) (hl : p'.ledger = p.ledger)
    (hh : p'.height = p.height) :
    block_by t' p' prev pk = block_by t p prev pk ∧
      empty_staged t' p' (block_by t' p' prev pk) = empty_staged t p (block_by t p prev pk) := by
  have hroot := state_root_with_congr hcanon hleaves
  have hled (b : Block) : empty_ledger p' t'.data_contributor b = empty_ledger p t.data_contributor b := by
    simp only [empty_ledger, hl, hdc]
  have hb : block_by t' p' prev pk = block_by t p prev pk := by
    simp only [block_by, empty_block, seal_block, hroot, hled, hparams, hm, hh]
  exact ⟨hb, by simp only [empty_staged, hb, hroot, hled, hparams, hm]⟩

/-- The holder of a key can extend any of the blocks. -/
theorem Knows.accepts (h : Knows n S hd ss cs) (hs : s ∈ ss) (hshare : Shares hd s) (pk : ByteArr 32) {x : String}
    (hx : (s.block pk).hash = x) (hfresh : ∀ s ∈ ss, s.hash ≠ x) (hconv : x ∉ cs ∧ s.hash ∉ cs) :
    ∃ p, n.tree.Accepts S (s.block pk) p (empty_staged s.tree s.parent (s.block pk)) ∧
      p.work = s.parent.work := by
  have hold := h.holds s hs
  obtain ⟨p, hp, hl, hh, hw⟩ := hold.entries
  have hm : p.model = s.parent.model := by
    have := (parent_entries_spec hp).1.symm.trans (h.coherent.model _ hold.known)
    rw [hold.state] at this
    exact Option.some.inj this
  obtain ⟨hb, hst⟩ := block_by_congr s.tree (n.tree.moved_to S s.hash) s.hash pk
    (congrArg Prod.fst hold.state) (h.leaves_at hs hshare) h.coherent.same_params h.contributor hm hl hh
  have hvalid := block_by_valid (n.tree.moved_to S s.hash) p s.hash pk
  rw [hst, hb] at hvalid
  refine ⟨p, ⟨fun hk => ?_, ?_, hold.known, hp, fun _ up down hf y hy => ?_, hvalid⟩, hw⟩
  · obtain ⟨s', hs', he⟩ := h.only _ (.inl hk)
    exact hfresh s' hs' (he.trans hx)
  · rw [h.convicted, hx]
    exact hconv
  · exact (h.unpruned.walk_kept h.coherent.shape hf y hy).1

theorem parent_entries_of {t : BlockTree} {h : String} {m : ModelState} {l : TokenLedger} {d : Header} {w : UInt64}
    (hm : t.model[h]? = some m) (hl : t.ledger[h]? = some l) (hb : t.blocks[h]? = some d)
    (hw : t.cum_work[h]? = some w) :
    t.parent_entries h = .ok ⟨m, l, d.height, w, t.recent_proposers h⟩ := by
  simp [parent_entries, ok_or, hm, hl, hb, hw]

/-- A connected block leaves the others as they were. -/
theorem Holds.keep (hold : Holds n S s) (hc : Coherent [5] grow_params n S) (hu : n.tree.Unpruned) {b : Block}
    {p : Parent} {staged : Staged} (ha : n.tree.Accepts S b p staged) :
    Holds (n.connected S b p staged) (state_with grow_params S b) s := by
  have hne : b.hash ≠ s.hash := fun he => ha.fresh (he ▸ hold.known)
  obtain ⟨q, hq, hl, hh, hw⟩ := hold.entries
  obtain ⟨hqm, hql, hqw, hqh, -⟩ := parent_entries_spec hq
  obtain ⟨hd, hqb, hqh⟩ := Option.map_eq_some_iff.mp hqh
  have hline := (hc.connected_line ha hold.known s.line).mpr hold.path
  rw [(hu.connected b p staged).prune_deep] at hline
  refine ⟨?_, ?_, ?_, ?_⟩
  · simp only [Logged.connected, connected_frame, mem_insert_iff]
    exact .inr hold.known
  · rw [state_with, Function.update_of_ne hne.symm, hold.state]
  · refine ⟨_, parent_entries_of (m := q.model) (l := q.ledger) (d := hd) (w := q.work) ?_ ?_ ?_ ?_, hl,
      hqh.trans hh, hw⟩
    all_goals simp only [Logged.connected, connected_frame, SumMap.get_insert, if_neg hne]
    · exact hqm
    · exact hql
    · exact hqb
    · exact hqw
  · simpa only [Logged.connected, connected_frame] using hline

/-- The connected block gives its children what the spot says. -/
theorem Holds.next (hold : Holds n S s) (hc : Coherent [5] grow_params n S) (hu : n.tree.Unpruned) (pk : ByteArr 32)
    {p : Parent} (ha : n.tree.Accepts S (s.block pk) p (empty_staged s.tree s.parent (s.block pk)))
    (hw : work_with p (s.block pk) = s.parent.work + 1) {x : String} (hx : (s.block pk).hash = x) :
    Holds (n.connected S (s.block pk) p (empty_staged s.tree s.parent (s.block pk)))
      (state_with grow_params S (s.block pk)) (s.next pk x) := by
  have hst := hc.staged_eq ha
  have hline := (hc.connected_new_line ha (s.next pk x).line).mpr ⟨s.line, by rw [hx]; rfl, hold.path⟩
  rw [(hu.connected _ p _).prune_deep, hx] at hline
  refine ⟨?_, ?_, ?_, ?_⟩
  · simp only [Logged.connected, connected_frame, mem_insert_iff, hx]
    exact .inl rfl
  · rw [state_with, hx, Spot.next, Function.update_self, ← hst, s.block_prev, hold.state]
    rfl
  · refine ⟨_, parent_entries_of (m := (empty_staged s.tree s.parent (s.block pk)).post_model)
      (l := (empty_staged s.tree s.parent (s.block pk)).led) (d := (s.block pk).header) (w := s.parent.work + 1)
      ?_ ?_ ?_ ?_, rfl, rfl, rfl⟩
    all_goals simp only [Logged.connected, connected_frame, Spot.next, SumMap.get_insert, hx, if_true]
    rw [hw]
  · simp only [Logged.connected, connected_frame]
    exact hline

/-- Fork choice between the head and a new block on top of `s`. -/
def pick (hd s new : Spot) : Spot :=
  if s.hash = hd.hash ∨ hd.parent.work < new.parent.work ∨ new.parent.work = hd.parent.work ∧ new.hash < hd.hash
    then new else hd

theorem Knows.adopts_iff (h : Knows n S hd ss cs) {b : Block} {p : Parent} :
    n.tree.adopts b p = true ↔ b.header.prev_hash = hd.hash ∨ hd.parent.work < work_with p b ∨
      work_with p b = hd.parent.work ∧ b.hash < hd.hash := by
  have hwhd : n.tree.cum_work[hd.hash]? = some hd.parent.work := by
    obtain ⟨q, hq, -, -, hqw⟩ := (h.holds hd h.head_mem).entries
    rw [(parent_entries_spec hq).2.2.1, hqw]
  simp [adopts, outweighs, h.head, hwhd]

theorem block_work (s : Spot) (pk : ByteArr 32) {p : Parent} (hp : p.work = s.parent.work)
    (hw : s.parent.work.toNat < 1000) : work_with p (s.block pk) = s.parent.work + 1 := by
  have hone : max (s.block pk).header.work 1 = 1 := by
    rw [show (s.block pk).header.work = _ from attempt_work_last _]
    rfl
  rw [work_with, hone, hp, saturating_add, if_pos (by rw [show (1 : UInt64).toNat = 1 from rfl]; omega)]

/-- The step: one more block, and the head that fork choice picks. -/
theorem Knows.extend (h : Knows n S hd ss cs) (hs : s ∈ ss) (hshare : Shares hd s) (pk : ByteArr 32) {u hd' : Spot}
    (hnext : s.next pk u.hash = u) (hx : (s.block pk).hash = u.hash) (hfresh : ∀ s ∈ ss, s.hash ≠ u.hash)
    (hconv : u.hash ∉ cs ∧ s.hash ∉ cs) (hw : s.parent.work.toNat < 1000) (hhd : pick hd s u = hd') :
    ∃ S', Knows (n.step (.add_block (s.block pk))) S' hd' (u :: ss) cs := by
  rw [← hhd, ← hnext]
  set x := u.hash with hxdef
  clear_value x
  obtain ⟨p, ha, hpw⟩ := h.accepts hs hshare pk hx hfresh hconv
  have hwork := block_work s pk hpw hw
  have hpick : pick hd s (s.next pk x) = if n.tree.adopts (s.block pk) p then s.next pk x else hd := by
    refine if_congr ?_ rfl rfl
    rw [h.adopts_iff, hwork, hx]
    rfl
  have hnew : (empty_staged s.tree s.parent (s.block pk)).new_leaves =
      leaves_for (s.next pk x).weights (s.next pk x).parent.model := by
    have hold := h.holds s hs
    have hdesc : Describes s.parent.model s.weights.length := by
      have := h.coherent.describes _ hold.known
      rwa [hold.state] at this
    have hredo : apply_redo s.tree.canon (empty_staged s.tree s.parent (s.block pk)).agg.toList = s.weights := rfl
    have hleaves := staged_leaves (block_by_valid s.tree s.parent s.hash pk) hdesc rfl fun htxs =>
      absurd (show (block_by s.tree s.parent s.hash pk).txs = [] from rfl) htxs
    rw [← Spot.block, hredo] at hleaves
    exact hleaves
  rw [h.coherent.step_accepts h.unpruned ha, hpick]
  refine ⟨_, h.coherent.connected h.unpruned ha, h.unpruned.connected _ p _, ?_, ?_, ?_, ?_, ?_, ?_, ?_, ?_⟩
  · simp only [Logged.connected, BlockTree.connected]
    split <;> exact h.contributor
  · simp only [Logged.connected, connected_frame]
    split
    · exact hx
    · exact h.head
  · split
    · exact List.mem_cons_self
    · exact List.mem_cons_of_mem _ h.head_mem
  · simp only [Logged.connected, BlockTree.connected]
    split
    · exact hnew
    · exact h.leaves
  · intro s' hs'
    rcases List.mem_cons.mp hs' with rfl | hs'
    · exact (h.holds s hs).next h.coherent h.unpruned pk ha hwork hx
    · exact (h.holds s' hs').keep h.coherent h.unpruned ha
  · intro y hy
    simp only [Logged.connected, connected_frame, mem_insert_iff, hx] at hy
    by_cases hyx : y = x
    · exact ⟨_, List.mem_cons_self, hyx.symm⟩
    · obtain ⟨s', hs', he⟩ := h.only y (hy.imp (·.resolve_left hyx) (·.resolve_left hyx))
      exact ⟨s', List.mem_cons_of_mem _ hs', he⟩
  · simp only [Logged.connected, connected_frame]
    exact h.convicted
  · intro y
    have : (n.connected S (s.block pk) p (empty_staged s.tree s.parent (s.block pk))).tree.redo =
        n.tree.redo.insert (s.block pk).hash [] := by
      simp only [Logged.connected, BlockTree.connected]
      split <;> rfl
    rw [this, SumMap.get_insert, hx]
    split
    · rfl
    · exact h.idle y

/-! ## The two branches -/

def alpha : ByteArr 32 := key 7
def beta : ByteArr 32 := key 8

def a₁ : Spot := genesis.next alpha (hash_of 0xec147f72)
def a₂ : Spot := a₁.next alpha (hash_of 0x927d8218)
def a₃ : Spot := a₂.next alpha (hash_of 0x31f679d0)
def b₁ : Spot := genesis.next beta (hash_of 0xf04a0602)
def b₂ : Spot := b₁.next beta (hash_of 0x6ca46beb)
def b₃ : Spot := b₂.next beta (hash_of 0x32a67d99)
def b₄ : Spot := b₃.next beta (hash_of 0x1e355991)

theorem hash_of_digest {h : Header} {n : Nat} (hn : digest h.canonical_json = n) :
    h.block_hash = hash_of n := by
  rw [← hn]
  rfl

theorem genesis_line : genesis.line = [genesis.hash] := rfl
theorem a₁_line : a₁.line = [a₁.hash, genesis.hash] := rfl
theorem a₂_line : a₂.line = [a₂.hash, a₁.hash, genesis.hash] := rfl
theorem a₃_line : a₃.line = [a₃.hash, a₂.hash, a₁.hash, genesis.hash] := rfl

theorem root_genesis : root.genesis_hash = (genesis_header [5] grow_params).block_hash := rfl

theorem digests :
    [(genesis_header [5] grow_params).canonical_json, (genesis.block alpha).header.canonical_json,
      (a₁.block alpha).header.canonical_json, (a₂.block alpha).header.canonical_json,
      (genesis.block beta).header.canonical_json, (b₁.block beta).header.canonical_json,
      (b₂.block beta).header.canonical_json, (b₃.block beta).header.canonical_json].map digest =
    [0x968839f5, 0xec147f72, 0x927d8218, 0x31f679d0, 0xf04a0602, 0x6ca46beb, 0x32a67d99, 0x1e355991] := by
  decide +kernel

theorem digest_at {l : List (List UInt8)} {ns : List Nat} (h : l.map digest = ns) (i : Nat) {b : List UInt8} {n : Nat}
    (hb : l[i]? = some b) (hn : ns[i]? = some n) : digest b = n := by
  have := congrArg (·[i]?) h
  simp only [List.getElem?_map, hb, hn, Option.map_some, Option.some.injEq] at this
  exact this

theorem genesis_hash : (genesis_header [5] grow_params).block_hash = genesis.hash :=
  hash_of_digest (digest_at digests 0 rfl rfl)

theorem hash_a₁ : (genesis.block alpha).hash = a₁.hash := hash_of_digest (digest_at digests 1 rfl rfl)
theorem hash_a₂ : (a₁.block alpha).hash = a₂.hash := hash_of_digest (digest_at digests 2 rfl rfl)
theorem hash_a₃ : (a₂.block alpha).hash = a₃.hash := hash_of_digest (digest_at digests 3 rfl rfl)
theorem hash_b₁ : (genesis.block beta).hash = b₁.hash := hash_of_digest (digest_at digests 4 rfl rfl)
theorem hash_b₂ : (b₁.block beta).hash = b₂.hash := hash_of_digest (digest_at digests 5 rfl rfl)
theorem hash_b₃ : (b₂.block beta).hash = b₃.hash := hash_of_digest (digest_at digests 6 rfl rfl)
theorem hash_b₄ : (b₃.block beta).hash = b₄.hash := hash_of_digest (digest_at digests 7 rfl rfl)

/-- Up to the growth the branches have the same pages. -/
theorem before_growth : (Shares a₁ genesis ∧ Shares a₂ genesis ∧ Shares genesis a₂) ∧
    (Shares a₃ genesis ∧ Shares a₃ b₁ ∧ Shares a₃ b₂) ∧ ¬ b₃.hash < a₃.hash := by
  decide +kernel

/-- Every block, the last of a branch first. -/
def all : List Spot := [b₄, b₃, b₂, b₁, a₃, a₂, a₁, genesis]

theorem hashes_nodup : (all.map Spot.hash).Nodup := by
  have h : ([0x1e355991, 0x32a67d99, 0x6ca46beb, 0xf04a0602, 0x31f679d0, 0x927d8218, 0xec147f72, 0x968839f5].map
      hash_bytes).Nodup := by
    decide
  have := h.map (f := hex_encode) fun _ _ => hex_encode_inj
  rwa [List.map_map] at this

theorem fresh_of_sublist {x : Spot} (h : (x :: ss).Sublist all) : ∀ s ∈ ss, s.hash ≠ x.hash := by
  have := hashes_nodup.sublist (h.map Spot.hash)
  rw [List.map_cons, List.nodup_cons] at this
  intro s hs he
  exact this.1 (he ▸ List.mem_map_of_mem hs)

/-! ## Runs over them -/

theorem root_run_tree (bs : List Block) :
    ((Logged.new [5] none grow_params).run (deliver bs)).tree = root.run (deliver bs) :=
  (Logged.new [5] none grow_params).run_tree (deliver bs)

theorem knows_root : Knows (.new [5] none grow_params) (fun _ => ([5], ModelState.genesis spec)) genesis [genesis] ∅ := by
  have hmem {ν : Type} {h : String} {v : ν} (hh : h ∈ (∅ : Dict ν).insert (genesis_header [5] grow_params).block_hash v) :
      genesis.hash = h := by
    rcases (mem_insert_iff _ _ _ _).mp hh with rfl | hh
    · exact genesis_hash.symm
    · simp at hh
  refine ⟨coherent_new (by decide) none, unpruned_new none, rfl, genesis_hash, List.mem_singleton_self _, rfl,
    fun s hs => ?_, fun h hh => ?_, rfl, fun h => rfl⟩
  · obtain rfl := List.mem_singleton.mp hs
    refine ⟨?_, rfl, ⟨_, parent_entries_of (m := ModelState.genesis spec) (l := TokenLedger.new)
      (d := genesis_header [5] grow_params) (w := 0) ?_ ?_ ?_ ?_, rfl, rfl, rfl⟩, ?_⟩
    all_goals simp only [← genesis_hash]
    · simp [Logged.new, BlockTree.new]
    · simp [Logged.new, BlockTree.new, grow_params]
    · simp [Logged.new, BlockTree.new, genesis_ledger]
    · simp [Logged.new, BlockTree.new]
    · simp [Logged.new, BlockTree.new]
    · exact (show genesis.line = [genesis.hash] from rfl) ▸ genesis_hash ▸ .root
  · exact ⟨genesis, List.mem_singleton_self _, hh.elim hmem hmem⟩

theorem pick_head (s new : Spot) : pick s s new = new := if_pos (.inl rfl)

theorem pick_heavier {hd s new : Spot} (hw : hd.parent.work < new.parent.work) : pick hd s new = new :=
  if_pos (.inr (.inl hw))

theorem pick_parked {hd s new : Spot} (hne : s.hash ≠ hd.hash) (hw : ¬ hd.parent.work < new.parent.work)
    (ht : ¬ (new.parent.work = hd.parent.work ∧ new.hash < hd.hash)) : pick hd s new = hd :=
  if_neg (not_or.mpr ⟨hne, not_or.mpr ⟨hw, ht⟩⟩)

theorem all_suffix (pre ss : List Spot) (h : pre ++ ss = all) : ss.Sublist all := h ▸ List.sublist_append_right pre ss

/-- Two blocks of the first branch. -/
theorem knows_a₂ : ∃ S, Knows ((Logged.new [5] none grow_params).run
    (deliver [genesis.block alpha, a₁.block alpha])) S a₂ [a₂, a₁, genesis] ∅ := by
  obtain ⟨S₁, h₁⟩ := knows_root.extend List.mem_cons_self (shares_self _) alpha (u := a₁) rfl hash_a₁
    (fresh_of_sublist (all_suffix [b₄, b₃, b₂, b₁, a₃, a₂] _ rfl)) (by simp) (by decide) (pick_head _ _)
  obtain ⟨S₂, h₂⟩ := h₁.extend List.mem_cons_self (shares_self _) alpha (u := a₂) rfl hash_a₂
    (fresh_of_sublist (all_suffix [b₄, b₃, b₂, b₁, a₃] _ rfl)) (by simp) (by decide) (pick_head _ _)
  exact ⟨S₂, h₂⟩

/-- The branches up to the blocks that append the page. -/
def alpha_branch : List Block := [genesis.block alpha, a₁.block alpha, a₂.block alpha]
def beta_branch : List Block := [genesis.block beta, b₁.block beta, b₂.block beta]

/-- After both branches the first one has the head. -/
theorem knows_both : ∃ S, Knows ((Logged.new [5] none grow_params).run (deliver (alpha_branch ++ beta_branch))) S a₃
    [b₃, b₂, b₁, a₃, a₂, a₁, genesis] ∅ := by
  have hg : genesis.hash ≠ a₃.hash := fresh_of_sublist (all_suffix [b₄, b₃, b₂, b₁] _ rfl) genesis (by simp)
  have hb₁ : b₁.hash ≠ a₃.hash := (fresh_of_sublist (all_suffix [b₄, b₃, b₂] _ rfl) a₃ (by simp)).symm
  have hb₂ : b₂.hash ≠ a₃.hash := (fresh_of_sublist (all_suffix [b₄, b₃] _ rfl) a₃ (by simp)).symm
  obtain ⟨S₂, h₂⟩ := knows_a₂
  obtain ⟨S₃, h₃⟩ := h₂.extend List.mem_cons_self (shares_self _) alpha (u := a₃) rfl hash_a₃
    (fresh_of_sublist (all_suffix [b₄, b₃, b₂, b₁] _ rfl)) (by simp) (by decide) (pick_head _ _)
  obtain ⟨S₄, h₄⟩ := h₃.extend (s := genesis) (by simp) before_growth.2.1.1 beta (u := b₁) rfl hash_b₁
    (fresh_of_sublist (all_suffix [b₄, b₃, b₂] _ rfl)) (by simp) (by decide)
    (pick_parked hg (by decide) fun h => absurd h.1 (by decide))
  obtain ⟨S₅, h₅⟩ := h₄.extend List.mem_cons_self before_growth.2.1.2.1 beta (u := b₂) rfl hash_b₂
    (fresh_of_sublist (all_suffix [b₄, b₃] _ rfl)) (by simp) (by decide)
    (pick_parked hb₁ (by decide) fun h => absurd h.1 (by decide))
  -- as much work as the head, and a greater hash
  obtain ⟨S₆, h₆⟩ := h₅.extend List.mem_cons_self before_growth.2.1.2.2 beta (u := b₃) rfl hash_b₃
    (fresh_of_sublist (all_suffix [b₄] _ rfl)) (by simp) (by decide)
    (pick_parked hb₂ (by decide) fun h => before_growth.2.2 h.2)
  exact ⟨S₆, h₆⟩

/-- The second branch alone can go on. -/
theorem knows_b₄ : ∃ S, Knows ((Logged.new [5] none grow_params).run
    (deliver (beta_branch ++ [b₃.block beta]))) S b₄ [b₄, b₃, b₂, b₁, genesis] ∅ := by
  have hsub : [b₄, b₃, b₂, b₁, genesis].Sublist all :=
    .cons_cons _ (.cons_cons _ (.cons_cons _ (.cons_cons _ (.cons _ (.cons _ (.cons _ (.cons_cons _ .slnil)))))))
  have hfresh {x : Spot} {ss : List Spot} (pre : List Spot) (h : pre ++ x :: ss = [b₄, b₃, b₂, b₁, genesis]) :
      ∀ s ∈ ss, s.hash ≠ x.hash :=
    fresh_of_sublist ((List.sublist_append_right pre (x :: ss)).trans (h ▸ hsub))
  obtain ⟨S₁, h₁⟩ := knows_root.extend List.mem_cons_self (shares_self _) beta (u := b₁) rfl hash_b₁
    (hfresh [b₄, b₃, b₂] rfl) (by simp) (by decide) (pick_head _ _)
  obtain ⟨S₂, h₂⟩ := h₁.extend List.mem_cons_self (shares_self _) beta (u := b₂) rfl hash_b₂
    (hfresh [b₄, b₃] rfl) (by simp) (by decide) (pick_head _ _)
  obtain ⟨S₃, h₃⟩ := h₂.extend List.mem_cons_self (shares_self _) beta (u := b₃) rfl hash_b₃
    (hfresh [b₄] rfl) (by simp) (by decide) (pick_head _ _)
  obtain ⟨S₄, h₄⟩ := h₃.extend List.mem_cons_self (shares_self _) beta (u := b₄) rfl hash_b₄
    (hfresh [] rfl) (by simp) (by decide) (pick_head _ _)
  exact ⟨S₄, h₄⟩

end Sestrian.Toy
