import Sestrian.Tree.Empty

/-!
# Extending the head

The easy case of `add_block`: the parent is the head of a full tree and nothing is convicted.
-/

open Check

namespace Sestrian

open BlockTree

section Any

variable [Crypto]

/-- A full tree with this head and no other blocks than these. -/
structure Tip (t : BlockTree) (p : Parent) (known : List String) : Prop where
  full : t.held = none
  innocent : ∀ h, h ∉ t.convicted
  unpruned : t.prune_depth = none
  only : ∀ h ∈ t.blocks, h ∈ known
  entries : ∃ jurors, t.parent_entries t.head = .ok { p with jurors }

variable {t : BlockTree} {p : Parent} {known : List String} {b : Block} {staged : Staged}

/-- The head takes a block that is valid for the entries it has. -/
theorem Tip.add_block_at {q : Parent} (h : Tip t p known) (hnew : b.hash ∉ known) (hprev : b.header.prev_hash = t.head)
    (he : t.parent_entries t.head = .ok q) (hv : t.validate_at_base b q = .ok staged) :
    t.add_block b = (.ok true,
      t.commit_staged b.hash b.header staged (saturating_add q.work (max b.header.work 1))) := by
  have hfresh : ¬ t.blocks.contains b.hash = true := fun hc =>
    hnew (h.only _ (Std.ExtTreeMap.contains_iff_mem.mp hc))
  unfold BlockTree.add_block connect_extend
  simp only [hfresh, h.innocent, or_self, if_false, h.full, Option.isSome_none, hprev, if_true, he, hv]
  rfl

theorem Tip.add_block (h : Tip t p known) (hnew : b.hash ∉ known) (hprev : b.header.prev_hash = t.head)
    (hv : ∀ jurors, t.validate_at_base b { p with jurors } = .ok staged) :
    t.add_block b = (.ok true,
      t.commit_staged b.hash b.header staged (saturating_add p.work (max b.header.work 1))) := by
  obtain ⟨jurors, he⟩ := h.entries
  exact h.add_block_at (q := { p with jurors }) hnew hprev he (hv jurors)

omit [Crypto] in
theorem Tip.verified (h : Tip t p known) (v : StrSet) : Tip { t with hash_verified := v } p known :=
  ⟨h.full, h.innocent, h.unpruned, h.only, h.entries⟩

omit [Crypto] in
theorem Tip.commit_eq (h : Tip t p known) (work : UInt64) (bh : String) (header : Header) :
    t.commit_staged bh header staged work = { t.record bh header staged work with
      canon := apply_redo t.canon staged.agg.toList ++ staged.init_pages.flatten
      page_leaves := staged.new_leaves
      head := bh } := by
  unfold commit_staged prune_deep
  simp only [record, h.unpruned]

theorem Tip.commit (h : Tip t p known) (work : UInt64) :
    Tip (t.commit_staged b.hash b.header staged work)
      { model := staged.post_model, ledger := staged.led, height := b.header.height, work, jurors := ∅ }
      (b.hash :: known) := by
  rw [h.commit_eq]
  refine ⟨h.full, h.innocent, h.unpruned, fun x hx => ?_, ?_⟩
  · rcases (mem_insert_iff _ _ _ _).mp hx with rfl | hx
    · exact List.mem_cons_self
    · exact List.mem_cons_of_mem _ (h.only x hx)
  · exact ⟨_, by simp [parent_entries, record, ok_or]; rfl⟩

/-- The log takes the block that the head takes. -/
theorem Tip.step_at {n : Logged} {q : Parent} (h : Tip n.tree p known) (hnew : b.hash ∉ known)
    (hprev : b.header.prev_hash = n.tree.head) (he : n.tree.parent_entries n.tree.head = .ok q)
    (hv : n.tree.validate_at_base b q = .ok staged) :
    n.step (.add_block b) =
      { tree := n.tree.commit_staged b.hash b.header staged (saturating_add q.work (max b.header.work 1))
        log := n.log.insert b.hash b } := by
  have hadd := h.add_block_at hnew hprev he hv
  have hfresh : b.hash ∉ n.tree.blocks := fun hm => hnew (h.only _ hm)
  have hmem : b.hash ∈
      (n.tree.commit_staged b.hash b.header staged (saturating_add q.work (max b.header.work 1))).blocks := by
    rw [h.commit_eq]
    exact (mem_insert_iff _ _ _ _).mpr (.inl rfl)
  unfold Logged.step
  simp only [BlockTree.step, hadd, hfresh, hmem, not_false_eq_true, and_self, if_true]

theorem Tip.step_add {n : Logged} (h : Tip n.tree p known) (hnew : b.hash ∉ known) (hprev : b.header.prev_hash = n.tree.head)
    (hv : ∀ jurors, n.tree.validate_at_base b { p with jurors } = .ok staged) :
    n.step (.add_block b) =
      { tree := n.tree.commit_staged b.hash b.header staged (saturating_add p.work (max b.header.work 1))
        log := n.log.insert b.hash b } := by
  obtain ⟨jurors, he⟩ := h.entries
  exact h.step_at (q := { p with jurors }) hnew hprev he (hv jurors)

end Any

open scoped Toy

namespace Toy

theorem start_tip : Tip start genesis_parent [start.head] where
  full := rfl
  innocent _ := Std.ExtTreeSet.not_mem_empty
  unpruned := rfl
  only := fun h hh => List.mem_singleton.mpr (by
    simp only [start, BlockTree.new, mem_insert_iff] at hh
    exact hh.resolve_right (by simp))
  entries := ⟨_, start_entries⟩

end Toy

end Sestrian
