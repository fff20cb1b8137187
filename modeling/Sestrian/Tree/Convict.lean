import Sestrian.Tree.Fork

/-!
# Convicted lines and the head

`add_block` refuses a convicted block and the children of one. It does not look further up,
so the head stays off a convicted line as long as nobody extends a block above its root.
-/

open Walk Check

namespace Sestrian

open Aggregate Pages BlockTree

section Any

variable [Crypto]

/-- `h` is the block `b` or descends from it. -/
def OnLine (t : BlockTree) (b h : String) : Prop := ∃ l, Path t.parent t.genesis_hash h l ∧ b ∈ l

/-- `h` descends from `b` and is another block. -/
def Descends (t : BlockTree) (b h : String) : Prop := h ≠ b ∧ OnLine t b h

variable {genesis_w : List Int64} {params : GenesisParams} {n : Logged} {S : String → List Int64 × ModelState}
  {t : BlockTree} {b : String}

omit [Crypto] in
theorem onLine_known (hs : t.Shape) {h : String} (ho : OnLine t b h) : b ∈ t.blocks := by
  obtain ⟨l, hl, hb⟩ := ho
  exact hs.line_known hl b hb

/-! ## Fork choice passes over convicted lines -/

omit [Crypto] in
/-- The walk of `is_convicted_line` stops at a convicted block above genesis. -/
theorem is_convicted_line_of_onLine (hs : t.Shape) {h : String} (hb : b ∈ t.convicted)
    (hg : b ≠ t.genesis_hash) (ho : OnLine t b h) : t.is_convicted_line h = true := by
  obtain ⟨l, hl, hbl⟩ := ho
  obtain ⟨l₂, hsplit, hp, hstop, hpass⟩ := walk_path
    (fun h => h = t.genesis_hash || decide (h ∈ t.convicted)) hl ⟨b, hbl, by simp [hb]⟩ t.walk_fuel (hs.line_length hl)
  have hbl₂ : b ∈ l₂ := by
    rw [hsplit] at hbl
    exact (List.mem_append.mp hbl).resolve_left fun hb' => hpass b hb' (by simp [hb])
  have hne : (walk t.parent (fun h => h = t.genesis_hash || decide (h ∈ t.convicted)) t.walk_fuel h).2 ≠
      t.genesis_hash := by
    intro he
    rw [he] at hp
    rw [hp.unique .root] at hbl₂
    exact hg (List.mem_singleton.mp hbl₂)
  simp only [is_convicted_line, decide_eq_true_eq]
  exact ⟨hne, by simpa [hne] using hstop⟩

omit [Crypto] in
theorem best_head_honest (t : BlockTree) : t.best_head = t.genesis_hash ∨ t.is_convicted_line t.best_head = false := by
  have hstep (ks : List String) (best : String × UInt64)
      (h : best.1 = t.genesis_hash ∨ t.is_convicted_line best.1 = false) :
      (ks.foldl t.better_head best).1 = t.genesis_hash ∨
        t.is_convicted_line (ks.foldl t.better_head best).1 = false := by
    induction ks generalizing best with
    | nil => exact h
    | cons k ks ih =>
      refine ih _ ?_
      unfold better_head
      split
      · exact h
      · next hk =>
        simp only [not_or, Bool.not_eq_true] at hk
        simp only
        split
        · exact .inr hk.2
        · exact h
  exact hstep _ _ (.inl rfl)

omit [Crypto] in
theorem best_head_known (hs : t.Shape) : t.best_head ∈ t.blocks := by
  have hstep (ks : List String) (best : String × UInt64) (h : best.1 ∈ t.blocks) (hks : ∀ k ∈ ks, k ∈ t.blocks) :
      (ks.foldl t.better_head best).1 ∈ t.blocks := by
    induction ks generalizing best with
    | nil => exact h
    | cons k ks ih =>
      refine ih _ ?_ fun x hx => hks x (List.mem_cons_of_mem _ hx)
      simp only [better_head]
      split_ifs
      · exact h
      · exact hks k List.mem_cons_self
      · exact h
  exact hstep _ _ hs.genesis_known fun k hk => Std.ExtTreeMap.mem_keys.mp hk

omit [Crypto] in
theorem onLine_genesis (ho : OnLine t b t.genesis_hash) : b = t.genesis_hash := by
  obtain ⟨l, hl, hb⟩ := ho
  rw [hl.unique .root] at hb
  exact List.mem_singleton.mp hb

omit [Crypto] in
/-- Fork choice never takes a block of a convicted line. -/
theorem best_head_offLine (hs : t.Shape) (hb : b ∈ t.convicted) (hg : b ≠ t.genesis_hash) :
    ¬ OnLine t b t.best_head := by
  intro ho
  rcases best_head_honest t with hbest | hbest
  · rw [hbest] at ho
    exact hg (onLine_genesis ho)
  · rw [is_convicted_line_of_onLine hs hb hg ho] at hbest
    exact absurd hbest (by simp)

/-- On a tree with all its records, a conviction on the head's line moves the head. -/
theorem Coherent.convict_moves (hc : Coherent genesis_w params n S) (hu : n.tree.Unpruned)
    (hg : b ≠ n.tree.genesis_hash) (ho : OnLine n.tree b n.tree.head) :
    let target := ({ n.tree with convicted := n.tree.convicted.insert b }).best_head
    target ∈ n.tree.blocks ∧ target ≠ n.tree.head ∧ ¬ OnLine n.tree b target ∧
      ∃ up down, n.tree.fork_walk target = .ok (up, down) ∧
        (n.tree.convict b).2 = n.tree.moved_off S (n.tree.convicted.insert b) target up down := by
  have hc' := hc.congr_marks n.tree.prune_depth n.tree.hash_verified (n.tree.convicted.insert b)
  have hconv : b ∈ n.tree.convicted.insert b := by simp
  intro target
  have hoff : ¬ OnLine n.tree b target := best_head_offLine hc'.shape hconv hg
  have hne : target ≠ n.tree.head := fun he => hoff (he ▸ ho)
  have hk : target ∈ n.tree.blocks := best_head_known hc'.shape
  refine ⟨hk, hne, hoff, ?_⟩
  obtain ⟨up, down, hf, hr⟩ := hc'.rewind_known ⟨hu.no_depth, hu.kept⟩ hk
  have hline : ({ n.tree with convicted := n.tree.convicted.insert b }).is_convicted_line n.tree.head = true :=
    is_convicted_line_of_onLine hc'.shape hconv hg ho
  refine ⟨up, down, hf, ?_⟩
  have hknown := onLine_known hc.shape ho
  simp only [BlockTree.convict, Std.ExtTreeMap.contains_iff_mem.mpr hknown, hline, Bool.not_true, Bool.false_eq_true, if_false]
  rw [if_neg hne, hr]
  rfl

/-! ## The head stays off the line -/

/-- The block is convicted and the head is not on its line. -/
structure OffLine (b : String) (t : BlockTree) : Prop where
  convicted : b ∈ t.convicted
  head : ¬ OnLine t b t.head

/-- The call does not deliver a child of a block that descends from `b`. -/
def Avoids (b : String) (t : BlockTree) (op : Op) : Prop :=
  ∀ blk, op = .add_block blk → ¬ Descends t b blk.header.prev_hash

theorem OffLine.connect (h : OffLine b n.tree) (hc : Coherent genesis_w params n S) {blk : Block} {p : Parent}
    {staged : Staged} (ha : n.tree.Accepts S blk p staged) (hav : ¬ Descends n.tree b blk.header.prev_hash) :
    OffLine b (n.tree.connected S blk p staged).prune_deep := by
  refine ⟨by simpa [connected_frame] using h.convicted, ?_⟩
  rintro ⟨l, hl, hbl⟩
  simp only [prune_deep_frame, connected_frame] at hl
  split at hl
  · obtain ⟨lp, rfl, hlp⟩ := (hc.connected_new_line ha l).mp hl
    rcases List.mem_cons.mp hbl with rfl | hbl
    · exact ha.unconvicted.1 h.convicted
    · -- the parent is on the line, so it is `b` itself
      refine hav ⟨fun he => ha.unconvicted.2 (he ▸ h.convicted), lp, hlp, hbl⟩
  · exact h.head ⟨l, (hc.connected_line ha hc.shape.head_known l).mp hl, hbl⟩

theorem OffLine.convict (h : OffLine b n.tree) (hc : Coherent genesis_w params n S) (c : String) :
    OffLine b (n.tree.convict c).2 := by
  have hconv : b ∈ n.tree.convicted.insert c := by simp [h.convicted]
  have hg : b ≠ n.tree.genesis_hash := by
    rintro rfl
    obtain ⟨l, hl⟩ := hc.shape.line _ hc.shape.head_known
    exact h.head ⟨l, hl, hl.root_mem⟩
  rcases hc.convict_cases c with he | ⟨target, up, down, -, -, -, -, htarget, he⟩
  · rw [he]
    exact ⟨hconv, h.head⟩
  · rw [he]
    refine ⟨hconv, fun ho => ?_⟩
    have hc' := hc.congr_marks n.tree.prune_depth n.tree.hash_verified (n.tree.convicted.insert c)
    have ho : OnLine { n.tree with convicted := n.tree.convicted.insert c } b target := ho
    rw [htarget] at ho
    exact best_head_offLine hc'.shape hconv hg ho

theorem OffLine.step (h : OffLine b n.tree) (hc : Coherent genesis_w params n S) (op : Op)
    (hav : Avoids b n.tree op) : OffLine b (n.step op).tree := by
  cases op with
  | add_block blk =>
    rcases hc.add_block_cases blk with ⟨e, he⟩ | ⟨-, he⟩ | ⟨p, staged, ha, he⟩
    · simpa [Logged.step, BlockTree.step, he] using h
    · simpa [Logged.step, BlockTree.step, he] using h
    · simpa [Logged.step, BlockTree.step, he] using h.connect hc ha (hav blk rfl)
  | with_state_at target =>
    rcases hc.with_state_at_cases target id with ⟨e, he⟩ | ⟨-, he⟩ <;>
      simpa [Logged.step, BlockTree.step, he] using h
  | convict c => exact h.convict hc c
  | set_prune_depth depth => exact ⟨h.convicted, h.head⟩
  | mark_verified txid => exact ⟨h.convicted, h.head⟩

theorem OffLine.run (h : OffLine b n.tree) (hc : Coherent genesis_w params n S) (ops : List Op)
    (hav : Along (Avoids b) n.tree ops) : OffLine b (n.run ops).tree := by
  induction ops generalizing n S with
  | nil => exact h
  | cons op ops ih =>
    obtain ⟨S', hc', -⟩ := hc.step op
    exact ih (h.step hc op hav.1) hc' hav.2

/-- After a conviction that leaves the head off the line, the head stays off it in every run
that extends no descendant of the convicted block. -/
theorem head_stays_off_convicted (genesis_w : List Int64) (dc : Option String) (params : GenesisParams)
    (hw : genesis_w.length = (ModelState.genesis params.spec).dim) (before after : List Op) (b : String) :
    let t := (BlockTree.new genesis_w dc params).run before
    b ∉ t.blocks ∨ ¬ OnLine (t.convict b).2 b (t.convict b).2.head →
      Along (Avoids b) (t.convict b).2 after →
        ¬ OnLine ((t.convict b).2.run after) b ((t.convict b).2.run after).head := by
  intro t hoff hav
  obtain ⟨S, hc⟩ := coherent_run hw dc before
  have htree : ((Logged.new genesis_w dc params).run before).tree = t := Logged.run_tree _ _
  obtain ⟨S', hc', -⟩ := hc.step (.convict b)
  have htree' : (((Logged.new genesis_w dc params).run before).step (.convict b)).tree = (t.convict b).2 := by
    rw [← htree]
    rfl
  have hstart : OffLine b (t.convict b).2 := by
    refine ⟨?_, ?_⟩
    · rcases hc.convict_cases b with he | ⟨target, up, down, -, -, -, -, -, he⟩ <;> rw [htree] at he <;> rw [he] <;>
        simp [moved_off]
    · rcases hoff with hunk | hoff
      · intro ho
        have hk := onLine_known (htree' ▸ hc'.shape) ho
        rcases hc.step_entries (.convict b) with hs | ⟨_, _, _, hop, -⟩
        · rw [← htree', hs.blocks, htree] at hk
          exact hunk hk
        · exact absurd hop (by simp)
      · exact hoff
  have := OffLine.run (n := ((Logged.new genesis_w dc params).run before).step (.convict b)) (htree' ▸ hstart) hc'
    after (htree' ▸ hav)
  rw [Logged.run_tree, htree'] at this
  exact this.head

end Any

open scoped Toy

namespace Toy

/-- Convicting the first block of the branch moves the head back to genesis. -/
theorem knows_convicted {n : Logged} {S : String → List Int64 × ModelState}
    (h : Knows n S a₂ [a₂, a₁, genesis] ∅) :
    Knows (n.step (.convict a₁.hash)) S genesis [a₂, a₁, genesis] ((∅ : StrSet).insert a₁.hash) := by
  have ha₁ : OnLine n.tree a₁.hash a₁.hash := ⟨_, (h.holds a₁ (by simp)).path, by simp [a₁_line]⟩
  have ha₂ : OnLine n.tree a₁.hash a₂.hash := ⟨_, (h.holds a₂ (by simp)).path, by simp [a₂_line]⟩
  have hg : n.tree.genesis_hash = genesis.hash := by
    have := (h.holds genesis (by simp)).path.root_mem
    rw [genesis_line] at this
    exact List.mem_singleton.mp this
  have hne : a₁.hash ≠ genesis.hash :=
    (fresh_of_sublist (all_suffix [b₄, b₃, b₂, b₁, a₃, a₂] _ rfl) genesis (by simp)).symm
  obtain ⟨hk, hhead, hoff, up, down, hf, hmoved⟩ :=
    h.coherent.convict_moves h.unpruned (hg ▸ hne) (h.head ▸ ha₂)
  have htarget : ({ n.tree with convicted := n.tree.convicted.insert a₁.hash }).best_head = genesis.hash := by
    obtain ⟨s, hs, he⟩ := h.only _ (.inl hk)
    rw [← he] at hoff ⊢
    rcases List.mem_cons.mp hs with rfl | hs
    · exact absurd ha₂ hoff
    rcases List.mem_cons.mp hs with rfl | hs
    · exact absurd ha₁ hoff
    · rw [List.mem_singleton.mp hs]
  rw [htarget] at hhead hf hmoved
  have hleaves : n.tree.rewound_leaves (S genesis.hash).1 up down (S genesis.hash).2 =
      leaves_for genesis.weights genesis.parent.model := by
    have := h.leaves_at (s := genesis) (by simp) before_growth.1.2.1
    rwa [leaves_at, if_neg hhead, hf] at this
  have hstep : (n.step (.convict a₁.hash)).tree =
      n.tree.moved_off S (n.tree.convicted.insert a₁.hash) genesis.hash up down := by
    rw [Logged.step_convict, hmoved]
  have hholds : ∀ s ∈ [a₂, a₁, genesis], Holds (n.step (.convict a₁.hash)) S s := by
    intro s hs
    obtain ⟨hk, hst, ⟨p, hp, hl, hh, hw⟩, hpath⟩ := h.holds s hs
    refine ⟨by rw [hstep]; exact hk, hst, ⟨p, ?_, hl, hh, hw⟩, ?_⟩
    · rw [hstep]
      exact hp
    · rw [hstep]
      exact hpath
  refine ⟨h.coherent.convict _, ?_, ?_, ?_, by simp, ?_, hholds, ?_, ?_, ?_⟩ <;> rw [hstep]
  · exact ⟨h.unpruned.no_depth, h.unpruned.kept⟩
  · exact h.contributor
  · rfl
  · exact hleaves
  · exact h.only
  · simp only [moved_off, h.convicted]
  · exact h.idle

theorem convicted_tree : ((root.run (deliver [genesis.block alpha, a₁.block alpha])).convict a₁.hash).2 =
    (((Logged.new [5] none grow_params).run (deliver [genesis.block alpha, a₁.block alpha])).step (.convict a₁.hash)).tree := by
  rw [Logged.step_convict, root_run_tree]

theorem Knows.genesis_offLine (h : Knows n S hd ss cs) (hg : genesis ∈ ss) : ¬ OnLine n.tree a₁.hash genesis.hash := by
  rintro ⟨l, hl, hmem⟩
  rw [hl.unique (h.holds genesis hg).path, genesis_line] at hmem
  exact fresh_of_sublist (all_suffix [b₄, b₃, b₂, b₁, a₃, a₂] _ rfl) genesis (by simp) (List.mem_singleton.mp hmem).symm

end Toy

/-- The first block of a branch is convicted, and another branch starts from genesis. -/
theorem head_stays_off_branch :
    let t := Toy.root.run (deliver [Toy.genesis.block Toy.alpha, Toy.a₁.block Toy.alpha])
    let after := deliver [Toy.genesis.block Toy.beta]
    OnLine t Toy.a₁.hash t.head ∧ ¬ OnLine (t.convict Toy.a₁.hash).2 Toy.a₁.hash (t.convict Toy.a₁.hash).2.head ∧
      Along (Avoids Toy.a₁.hash) (t.convict Toy.a₁.hash).2 after ∧
      ¬ OnLine ((t.convict Toy.a₁.hash).2.run after) Toy.a₁.hash ((t.convict Toy.a₁.hash).2.run after).head := by
  have hstays := head_stays_off_convicted [5] none Toy.grow_params (by decide)
    (deliver [Toy.genesis.block Toy.alpha, Toy.a₁.block Toy.alpha]) (deliver [Toy.genesis.block Toy.beta]) Toy.a₁.hash
  rw [show BlockTree.new [5] none Toy.grow_params = Toy.root from rfl] at hstays
  obtain ⟨S, h₀⟩ := Toy.knows_a₂
  have h := Toy.knows_convicted h₀
  have ht := Toy.root_run_tree [Toy.genesis.block Toy.alpha, Toy.a₁.block Toy.alpha]
  have htree := Toy.convicted_tree
  -- named, so that nothing below runs it
  generalize Toy.root.run (deliver [Toy.genesis.block Toy.alpha, Toy.a₁.block Toy.alpha]) = u at hstays ht htree ⊢
  intro t after
  have hon : OnLine t Toy.a₁.hash t.head := by
    rw [show t = u from rfl, ← ht, h₀.head]
    exact ⟨_, (h₀.holds Toy.a₂ (by simp)).path, by simp [Toy.a₂_line]⟩
  have hoff : ¬ OnLine (u.convict Toy.a₁.hash).2 Toy.a₁.hash (u.convict Toy.a₁.hash).2.head := by
    rw [htree, h.head]
    exact h.genesis_offLine (by simp)
  have hav : Along (Avoids Toy.a₁.hash) (t.convict Toy.a₁.hash).2 after := by
    refine ⟨fun blk hblk hd => ?_, trivial⟩
    obtain rfl := Op.add_block.inj hblk
    rw [show t = u from rfl, htree] at hd
    exact h.genesis_offLine (by simp) hd.2
  exact ⟨hon, hoff, hav, hstays (.inr hoff) hav⟩

/-- A descendant that was in the tree when its ancestor was convicted is extended: the head is
back on the convicted line. -/
theorem convicted_line_returns : ¬ ∀ (before after : List Op) (b : String),
    let t := Toy.root.run before
    b ∉ t.blocks ∨ ¬ OnLine (t.convict b).2 b (t.convict b).2.head →
      ¬ OnLine ((t.convict b).2.run after) b ((t.convict b).2.run after).head := by
  intro hclaim
  obtain ⟨S, h₀⟩ := Toy.knows_a₂
  have h := Toy.knows_convicted h₀
  have hfresh := Toy.fresh_of_sublist (Toy.all_suffix [Toy.b₄, Toy.b₃, Toy.b₂, Toy.b₁] _ rfl)
  have hmem {x : String} (hx : x ≠ Toy.a₁.hash) : x ∉ (∅ : StrSet).insert Toy.a₁.hash := by
    simpa using fun he => hx he.symm
  have ha₂ : Toy.a₂.hash ≠ Toy.a₁.hash :=
    (Toy.fresh_of_sublist (Toy.all_suffix [Toy.b₄, Toy.b₃, Toy.b₂, Toy.b₁, Toy.a₃] _ rfl) Toy.a₁ (by simp)).symm
  obtain ⟨S', h'⟩ := h.extend (s := Toy.a₂) (by simp) Toy.before_growth.1.2.2 Toy.alpha (u := Toy.a₃) rfl Toy.hash_a₃
    hfresh ⟨hmem (hfresh Toy.a₁ (by simp)).symm, hmem ha₂⟩ (by decide) (Toy.pick_heavier (by decide))
  refine hclaim (deliver [Toy.genesis.block Toy.alpha, Toy.a₁.block Toy.alpha]) (deliver [Toy.a₂.block Toy.alpha])
    Toy.a₁.hash (.inr ?_) ?_
  · rw [Toy.convicted_tree, h.head]
    exact h.genesis_offLine (by simp)
  · rw [Toy.convicted_tree, Logged.run_one, h'.head]
    exact ⟨_, (h'.holds Toy.a₃ (by simp)).path, by simp [Toy.a₃_line]⟩

end Sestrian
