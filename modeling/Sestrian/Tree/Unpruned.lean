import Sestrian.Tree.Step

/-!
# Trees that are never pruned

Every known block keeps its record, so canon can be moved to any of them. What a block needs
to be accepted is then the validation at its parent, and nothing about the head.
-/

open Walk Check

namespace Sestrian

open Aggregate Pages BlockTree

/-- Every block above genesis has its record. -/
structure BlockTree.Unpruned (t : BlockTree) : Prop where
  no_depth : t.prune_depth = none
  kept : ∀ h ∈ t.blocks, h ≠ t.genesis_hash → h ∈ t.undo ∧ h ∈ t.redo

theorem BlockTree.Unpruned.prune_deep {t : BlockTree} (h : t.Unpruned) : t.prune_deep = t := by
  simp [BlockTree.prune_deep, h.no_depth]

/-- The blocks that a walk leaves or enters are above genesis. -/
theorem BlockTree.Unpruned.walk_kept {t : BlockTree} (h : t.Unpruned) (hs : t.Shape) {target : String}
    {up down : List String} (hf : t.fork_walk target = .ok (up, down)) :
    ∀ x ∈ up ++ down, x ∈ t.undo ∧ x ∈ t.redo := by
  obtain ⟨-, c, lc, hc, hup, hdown, -⟩ := fork_walk_spec hs hf
  have hne {l : List String} {a x : String} (hl : Path t.parent t.genesis_hash a (l ++ lc)) (hx : x ∈ l) :
      x ≠ t.genesis_hash := by
    rintro rfl
    exact List.disjoint_of_nodup_append hl.nodup hx hc.root_mem
  intro x hx
  rcases List.mem_append.mp hx with hx | hx
  · exact h.kept x (hs.line_known hup x (List.mem_append_left _ hx)) (hne hup hx)
  · exact h.kept x (hs.line_known hdown x (List.mem_append_left _ hx)) (hne hdown hx)

variable [Crypto]

variable {genesis_w : List Int64} {params : GenesisParams} {n : Logged} {S : String → List Int64 × ModelState}

theorem unpruned_new (dc : Option String) : (BlockTree.new genesis_w dc params).Unpruned := by
  refine ⟨rfl, fun h hh hne => absurd ?_ hne⟩
  rcases (mem_insert_iff _ _ _ _).mp hh with rfl | hh
  · rfl
  · simp at hh

theorem BlockTree.Unpruned.connected {t : BlockTree} (h : t.Unpruned) (b : Block) (p : Parent)
    (staged : Staged) : (t.connected S b p staged).Unpruned := by
  have hrec : (t.recorded (S b.header.prev_hash).1 b staged (work_with p b)).Unpruned := by
    refine ⟨h.no_depth, fun x hx hne => ?_⟩
    rcases (mem_insert_iff _ _ _ _).mp hx with rfl | hx
    · exact ⟨(mem_insert_iff _ _ _ _).mpr (.inl rfl), (mem_insert_iff _ _ _ _).mpr (.inl rfl)⟩
    · exact (h.kept x hx hne).imp (fun he => (mem_insert_iff _ _ _ _).mpr (.inr he))
        fun he => (mem_insert_iff _ _ _ _).mpr (.inr he)
  unfold BlockTree.connected
  split
  · exact ⟨hrec.no_depth, hrec.kept⟩
  · exact hrec

/-- Canon can be moved to any known block. -/
theorem Coherent.rewind_known (hc : Coherent genesis_w params n S) (hu : n.tree.Unpruned) {target : String}
    (hk : target ∈ n.tree.blocks) :
    ∃ up down, n.tree.fork_walk target = .ok (up, down) ∧
      n.tree.rewind_to target = (.ok { up, down, saved_leaves := n.tree.page_leaves },
        { n.tree with
          canon := (S target).1
          page_leaves := n.tree.rewound_leaves (S target).1 up down (S target).2 }) := by
  obtain ⟨up, down, hf⟩ := fork_walk_known hc.shape hk
  rcases hc.rewind_cases target with ⟨e, he⟩ | ⟨up, down, hf, -, -, hr⟩
  · have hall := hu.walk_kept hc.shape hf
    have hkept : ¬ ∃ h ∈ up ++ down, ¬ (n.tree.undo.contains h ∧ n.tree.redo.contains h) := by
      rintro ⟨h, hh, hno⟩
      exact hno ((hall h hh).imp Std.ExtTreeMap.contains_iff_mem.mpr Std.ExtTreeMap.contains_iff_mem.mpr)
    have := congrArg Prod.fst he
    simp only [rewind_to, hf, hkept, if_false, hc.model target hk] at this
    exact absurd this (by simp)
  · exact ⟨up, down, hf, hr⟩

/-- A block that passes the checks at its parent is connected, wherever the head is. -/
theorem Coherent.add_block_accepts (hc : Coherent genesis_w params n S) (hu : n.tree.Unpruned) {b : Block}
    {p : Parent} {staged : Staged} (ha : n.tree.Accepts S b p staged) :
    n.tree.add_block b = (.ok (n.tree.adopts b p), n.tree.connected S b p staged) := by
  have hup := (hu.connected (S := S) b p staged).prune_deep
  have hstep : n.tree.add_block b = if b.header.prev_hash = n.tree.head then n.tree.connect_extend b
      else n.tree.connect_side b := by
    simp [add_block, ha.fresh, ha.unconvicted, hc.shape.full]
  rw [hstep]
  split
  · next hhead =>
    have hmoved : n.tree.moved_to S b.header.prev_hash = n.tree := by
      rw [moved_to, leaves_at, if_pos hhead, hhead, ← hc.canon]
    rcases hc.connect_extend_cases b hhead with ⟨e, he⟩ | ⟨p', staged', hp, hv, h⟩
    · have hv := ha.valid
      rw [hmoved] at hv
      have := congrArg Prod.fst he
      simp only [connect_extend, ← hhead, ha.entries, hv] at this
      exact absurd this (by simp)
    · obtain rfl := Except.ok.inj (hp.symm.trans ha.entries)
      obtain rfl := Except.ok.inj (hv.symm.trans ha.valid)
      rw [h, hup]
      simp [adopts, hhead]
  · next hhead =>
    rcases hc.connect_side_cases b hhead ha.fresh with ⟨e, he⟩ | ⟨p', staged', hp, -, -, hv, h⟩
    · obtain ⟨up, down, hf, hr⟩ := hc.rewind_known hu ha.parent_known
      have hmoved : n.tree.moved_to S b.header.prev_hash = { n.tree with
          canon := (S b.header.prev_hash).1
          page_leaves := n.tree.rewound_leaves (S b.header.prev_hash).1 up down (S b.header.prev_hash).2 } := by
        simp only [moved_to, leaves_at, if_neg hhead, hf]
      have := congrArg Prod.fst he
      simp only [connect_side, ha.entries, hr, ← hmoved, ha.valid] at this
      split at this <;> exact absurd this (by simp)
    · obtain rfl := Except.ok.inj (hp.symm.trans ha.entries)
      obtain rfl := Except.ok.inj (hv.symm.trans ha.valid)
      rw [h, hup]

/-- The node after an accepted block. -/
def Logged.connected (n : Logged) (S : String → List Int64 × ModelState) (b : Block) (p : Parent)
    (staged : Staged) : Logged :=
  { tree := n.tree.connected S b p staged, log := n.log.insert b.hash b }

/-- The weights and models after an accepted block. -/
def state_with (params : GenesisParams) (S : String → List Int64 × ModelState) (b : Block) :
    String → List Int64 × ModelState :=
  Function.update S b.hash (dense_apply params (S b.header.prev_hash) b)

theorem Coherent.connected (hc : Coherent genesis_w params n S) (hu : n.tree.Unpruned) {b : Block} {p : Parent}
    {staged : Staged} (ha : n.tree.Accepts S b p staged) :
    Coherent genesis_w params (n.connected S b p staged) (state_with params S b) := by
  have := hc.accept ha
  rwa [(hu.connected b p staged).prune_deep] at this

theorem Coherent.step_accepts (hc : Coherent genesis_w params n S) (hu : n.tree.Unpruned) {b : Block} {p : Parent}
    {staged : Staged} (ha : n.tree.Accepts S b p staged) :
    n.step (.add_block b) = n.connected S b p staged := by
  have := hc.add_block_accepts hu ha
  simp [Logged.step, BlockTree.step, this, ha.fresh, connected_frame, Logged.connected]

end Sestrian
