import Sestrian.Tree.Convict

/-!
# Where a conviction leaves the head

Fork choice after a conviction looks at tips only. It finds the heaviest block that survives
exactly when that block is a tip, or when nothing but genesis survives.
-/

open Walk Check

namespace Sestrian

open Aggregate Pages BlockTree

section Any

variable [Crypto]

variable {genesis_w : List Int64} {params : GenesisParams} {n : Logged} {S : String → List Int64 × ModelState}
  {t : BlockTree} {b : String}

/-- The block is known, and nothing on its line above genesis is convicted. -/
def Survives (t : BlockTree) (h : String) : Prop :=
  ∃ l, Path t.parent t.genesis_hash h l ∧ h ∈ t.blocks ∧ ∀ x ∈ l, x ≠ t.genesis_hash → x ∉ t.convicted

/-- The heaviest block that survives, ties to the smallest hash. -/
def Heaviest (t : BlockTree) (h : String) : Prop :=
  Survives t h ∧ ∀ x, Survives t x →
    t.cum_work[x]?.getD 0 < t.cum_work[h]?.getD 0 ∨ t.cum_work[x]?.getD 0 = t.cum_work[h]?.getD 0 ∧ h ≤ x

/-- The tree once the conviction is noted. -/
def marked (t : BlockTree) (b : String) : BlockTree := { t with convicted := t.convicted.insert b }

/-! ## Survivors -/

omit [Crypto] in
theorem survives_genesis (hs : t.Shape) : Survives t t.genesis_hash :=
  ⟨_, .root, hs.genesis_known, fun _ hx hne => absurd (List.mem_singleton.mp hx) hne⟩

omit [Crypto] in
theorem survives_iff (hs : t.Shape) {h : String} (hk : h ∈ t.blocks) :
    Survives t h ↔ t.is_convicted_line h = false := by
  obtain ⟨l, hl⟩ := hs.line h hk
  constructor
  · rintro ⟨l', hl', -, hfree⟩
    obtain rfl := hl.unique hl'
    obtain ⟨l₂, hsplit, hp, hstop, -⟩ := walk_path
      (fun h => h = t.genesis_hash || decide (h ∈ t.convicted)) hl ⟨t.genesis_hash, hl.root_mem, by simp⟩ t.walk_fuel
      (hs.line_length hl)
    simp only [is_convicted_line, decide_eq_false_iff_not]
    rintro ⟨hne, hconv⟩
    refine hfree _ ?_ hne hconv
    rw [hsplit]
    exact List.mem_append_right _ hp.start_mem
  · intro hline
    refine ⟨l, hl, hk, fun x hx hne hconv => ?_⟩
    rw [is_convicted_line_of_onLine hs hconv hne ⟨l, hl, hx⟩] at hline
    exact absurd hline (by simp)

/-! ## The loop over the blocks -/

/-- The pair is no worse than the block `k`. -/
def NotBeaten (best : String × UInt64) (k : String) (w : UInt64) : Prop := w < best.2 ∨ w = best.2 ∧ best.1 ≤ k

omit [Crypto] in
theorem NotBeaten.better {best : String × UInt64} {k : String} {w : UInt64} (h : NotBeaten best k w) (x : String) :
    NotBeaten (t.better_head best x) k w := by
  unfold better_head
  split
  · exact h
  simp only
  split
  · next hx =>
    rcases hx with hx | ⟨hx, hlt⟩ <;> rcases h with h | ⟨h, hle⟩
    · exact .inl (UInt64.lt_trans h hx)
    · exact .inl (h ▸ hx)
    · exact .inl (hx ▸ h)
    · exact .inr ⟨h.trans hx.symm, (hlt.trans_le hle).le⟩
  · exact h

omit [Crypto] in
theorem better_head_takes {best : String × UInt64} {k : String} (htip : t.is_tip k = true)
    (hline : t.is_convicted_line k = false) : NotBeaten (t.better_head best k) k (t.cum_work[k]?.getD 0) := by
  simp only [better_head, htip, hline, Bool.not_true, Bool.false_eq_true, or_self, if_false]
  split
  · exact .inr ⟨rfl, le_rfl⟩
  · next hno =>
    rw [not_or, not_and] at hno
    rcases UInt64.lt_or_eq_of_le (UInt64.not_lt.mp hno.1) with hlt | heq
    · exact .inl hlt
    · exact .inr ⟨heq, not_lt.mp (hno.2 heq)⟩

omit [Crypto] in
theorem foldl_not_beaten (ks : List String) (best : String × UInt64) {k : String} {w : UInt64}
    (h : NotBeaten best k w) : NotBeaten (ks.foldl t.better_head best) k w := by
  induction ks generalizing best with
  | nil => exact h
  | cons x ks ih => exact ih _ (h.better x)

omit [Crypto] in
/-- No tip that survives beats the result. -/
theorem foldl_best (ks : List String) (best : String × UInt64) {k : String} (hk : k ∈ ks)
    (htip : t.is_tip k = true) (hline : t.is_convicted_line k = false) :
    NotBeaten (ks.foldl t.better_head best) k (t.cum_work[k]?.getD 0) := by
  induction ks generalizing best with
  | nil => simp at hk
  | cons x ks ih =>
    rcases List.mem_cons.mp hk with rfl | hk
    · exact foldl_not_beaten ks _ (better_head_takes htip hline)
    · exact ih _ hk

/-- What the loop carries: genesis with no work, or a tip that survives with its own work. -/
def Candidate (t : BlockTree) (best : String × UInt64) : Prop :=
  best = (t.genesis_hash, 0) ∨
    (t.is_tip best.1 = true ∧ t.is_convicted_line best.1 = false ∧ best.2 = t.cum_work[best.1]?.getD 0)

omit [Crypto] in
theorem foldl_candidate (ks : List String) (best : String × UInt64) (h : Candidate t best) :
    Candidate t (ks.foldl t.better_head best) := by
  induction ks generalizing best with
  | nil => exact h
  | cons k ks ih =>
    refine ih _ ?_
    unfold better_head
    split
    · exact h
    next hk =>
    simp only [not_or, Bool.not_eq_true, Bool.not_eq_false'] at hk
    simp only
    split
    · exact .inr ⟨hk.1, hk.2, rfl⟩
    · exact h

/-! ## When the choice is right -/

/-- Genesis has no work, and every other known block has some. -/
structure Weighted (t : BlockTree) : Prop where
  genesis : t.cum_work[t.genesis_hash]?.getD 0 = 0
  others : ∀ h ∈ t.blocks, h ≠ t.genesis_hash → 0 < t.cum_work[h]?.getD 0

omit [Crypto] in
theorem Heaviest.unique {h h' : String} (hh : Heaviest t h) (hh' : Heaviest t h') : h = h' := by
  rcases hh.2 h' hh'.1 with hlt | ⟨heq, hle⟩ <;> rcases hh'.2 h hh.1 with hlt' | ⟨heq', hle'⟩
  · exact absurd (UInt64.lt_trans hlt hlt') (UInt64.lt_irrefl _)
  · exact absurd (heq' ▸ hlt) (UInt64.lt_irrefl _)
  · exact absurd (heq ▸ hlt') (UInt64.lt_irrefl _)
  · exact le_antisymm hle hle'

omit [Crypto] in
/-- The choice is the heaviest survivor exactly when that one is a tip or genesis. -/
theorem best_head_heaviest_iff (hs : t.Shape) (hw : Weighted t) :
    Heaviest t t.best_head ↔ ∃ h, Heaviest t h ∧ (t.is_tip h = true ∨ h = t.genesis_hash) := by
  have hcand := foldl_candidate t.blocks.keys (t.genesis_hash, 0) (.inl rfl : Candidate t _)
  have hknown := best_head_known hs
  have hbest : t.best_head = (t.blocks.keys.foldl t.better_head (t.genesis_hash, 0)).1 := rfl
  set r := t.blocks.keys.foldl t.better_head (t.genesis_hash, 0) with hr
  have hwork : t.cum_work[t.best_head]?.getD 0 = r.2 := by
    rw [hbest]
    rcases hcand with he | ⟨-, -, he⟩
    · rw [he]
      exact hw.genesis
    · exact he.symm
  constructor
  · intro h
    refine ⟨_, h, ?_⟩
    rw [hbest]
    rcases hcand with he | ⟨htip, -⟩
    · exact .inr (by rw [he])
    · exact .inl htip
  · rintro ⟨h, hh, htop⟩
    obtain ⟨-, -, hhk, -⟩ := hh.1
    have hsurv : Survives t t.best_head := by
      rcases best_head_honest t with he | he
      · rw [he]
        exact survives_genesis hs
      · exact (survives_iff hs hknown).mpr he
    suffices heq : t.best_head = h by rwa [heq]
    rcases htop with htip | rfl
    · have hnot := foldl_best t.blocks.keys (t.genesis_hash, 0) (Std.ExtTreeMap.mem_keys.mpr hhk) htip
        ((survives_iff hs hhk).mp hh.1)
      rw [← hr, NotBeaten, ← hbest, ← hwork] at hnot
      rcases hnot with hlt | ⟨heq, hle⟩ <;> rcases hh.2 _ hsurv with hlt' | ⟨heq', hle'⟩
      · exact absurd (UInt64.lt_trans hlt hlt') (UInt64.lt_irrefl _)
      · exact absurd (heq' ▸ hlt) (UInt64.lt_irrefl _)
      · exact absurd (heq ▸ hlt') (UInt64.lt_irrefl _)
      · exact le_antisymm hle hle'
    · by_contra hne
      have hpos := hw.others _ hknown hne
      have hcmp := hh.2 _ hsurv
      rw [hw.genesis] at hcmp
      rcases hcmp with hlt | ⟨heq, -⟩
      · exact absurd hlt (UInt64.not_lt.mpr (UInt64.zero_le))
      · exact absurd (heq ▸ hpos) (UInt64.lt_irrefl _)

/-! ## Runs -/

omit [Crypto] in
theorem work_with_pos (p : Parent) (blk : Block) : 0 < work_with p blk := by
  rw [UInt64.lt_iff_toNat_lt, work_with, toNat_saturating_add, toNat_max, show (1 : UInt64).toNat = 1 from rfl]
  have : (0 : UInt64).toNat = 0 := rfl
  omega

theorem weighted_new (dc : Option String) : Weighted (BlockTree.new genesis_w dc params) := by
  refine ⟨by simp [BlockTree.new], fun h hh hne => absurd ?_ hne⟩
  rcases (mem_insert_iff _ _ _ _).mp hh with rfl | hh
  · rfl
  · simp at hh

theorem Weighted.step (h : Weighted n.tree) (hc : Coherent genesis_w params n S) (op : Op) :
    Weighted (n.step op).tree := by
  rcases hc.step_entries op with he | ⟨blk, p, staged, -, ha, he⟩
  · refine ⟨by rw [he.cum_work, he.genesis_hash]; exact h.genesis, fun x hx hne => ?_⟩
    rw [he.cum_work]
    exact h.others x (he.blocks ▸ hx) (he.genesis_hash ▸ hne)
  · have hgen : blk.hash ≠ n.tree.genesis_hash := fun hg => ha.fresh (hg ▸ hc.shape.genesis_known)
    rw [he]
    refine ⟨?_, fun x hx hne => ?_⟩
    · simp only [prune_deep_frame, connected_frame, SumMap.get_insert, hgen, if_false]
      exact h.genesis
    · simp only [prune_deep_frame, connected_frame, SumMap.get_insert, mem_insert_iff] at hx hne ⊢
      split
      · exact work_with_pos p blk
      · next hbx => exact h.others x (hx.resolve_left (Ne.symm hbx)) hne

theorem BlockTree.Unpruned.step (h : n.tree.Unpruned) (hc : Coherent genesis_w params n S) {op : Op}
    (hop : ∀ depth, op ≠ .set_prune_depth depth) : (n.step op).tree.Unpruned := by
  cases op with
  | add_block blk =>
    rcases hc.add_block_cases blk with ⟨e, he⟩ | ⟨-, he⟩ | ⟨p, staged, ha, he⟩
    · simpa [Logged.step, BlockTree.step, he] using h
    · simpa [Logged.step, BlockTree.step, he] using h
    · have hcon := h.connected (S := S) blk p staged
      simpa [Logged.step, BlockTree.step, he, hcon.prune_deep] using hcon
  | with_state_at target =>
    rcases hc.with_state_at_cases target id with ⟨e, he⟩ | ⟨-, he⟩ <;>
      simpa [Logged.step, BlockTree.step, he] using h
  | convict c =>
    rcases hc.convict_cases c with he | ⟨target, up, down, -, -, -, -, -, he⟩ <;>
      simp only [Logged.step, BlockTree.step, he] <;> exact ⟨h.no_depth, h.kept⟩
  | set_prune_depth depth => exact absurd rfl (hop depth)
  | mark_verified txid => exact ⟨h.no_depth, h.kept⟩

/-- What a run without pruning keeps. -/
theorem unpruned_run (hc : Coherent genesis_w params n S) (hu : n.tree.Unpruned) (hw : Weighted n.tree) (ops : List Op)
    (hops : ∀ depth, Op.set_prune_depth depth ∉ ops) :
    ∃ S', Coherent genesis_w params (n.run ops) S' ∧ (n.run ops).tree.Unpruned ∧ Weighted (n.run ops).tree := by
  induction ops generalizing n S with
  | nil => exact ⟨S, hc, hu, hw⟩
  | cons op ops ih =>
    obtain ⟨S', hc', -⟩ := hc.step op
    have hop : ∀ depth, op ≠ .set_prune_depth depth := fun depth he => hops depth (he ▸ List.mem_cons_self)
    exact ih hc' (hu.step hc hop) (hw.step hc op) fun depth hd => hops depth (List.mem_cons_of_mem _ hd)

theorem Coherent.convict_heaviest_iff (hc : Coherent genesis_w params n S) (hu : n.tree.Unpruned)
    (hw : Weighted n.tree) (hg : b ≠ n.tree.genesis_hash) (ho : OnLine n.tree b n.tree.head) :
    Heaviest (n.tree.convict b).2 (n.tree.convict b).2.head ↔
      ∃ h, Heaviest (marked n.tree b) h ∧ ((marked n.tree b).is_tip h = true ∨ h = n.tree.genesis_hash) := by
  have hc' := hc.congr_marks n.tree.prune_depth n.tree.hash_verified (n.tree.convicted.insert b)
  obtain ⟨-, -, -, up, down, -, he⟩ := hc.convict_moves hu hg ho
  have hiff := best_head_heaviest_iff (t := marked n.tree b) hc'.shape ⟨hw.genesis, hw.others⟩
  rw [he]
  exact hiff

/-- In every run without pruning, a conviction on the head's line leaves the head at the
heaviest survivor exactly when that block is a tip or genesis. -/
theorem conviction_finds_heaviest (genesis_w : List Int64) (dc : Option String) (params : GenesisParams)
    (hw : genesis_w.length = (ModelState.genesis params.spec).dim) (ops : List Op)
    (hops : ∀ depth, Op.set_prune_depth depth ∉ ops) (b : String) :
    let t := (BlockTree.new genesis_w dc params).run ops
    b ≠ t.genesis_hash → OnLine t b t.head →
      (Heaviest (t.convict b).2 (t.convict b).2.head ↔
        ∃ h, Heaviest (marked t b) h ∧ ((marked t b).is_tip h = true ∨ h = t.genesis_hash)) := by
  intro t hg ho
  obtain ⟨S, hc, hu, hwt⟩ := unpruned_run (coherent_new hw dc) (unpruned_new dc) (weighted_new dc) ops hops
  have htree : ((Logged.new genesis_w dc params).run ops).tree = t := Logged.run_tree _ _
  rw [← htree] at hg ho ⊢
  exact hc.convict_heaviest_iff hu hwt hg ho

end Any

/-! ## A stump -/

open scoped Toy

namespace Toy

variable {n : Logged} {S : String → List Int64 × ModelState}

theorem Knows.genesis_eq (h : Knows n S a₂ [a₂, a₁, genesis] ∅) : n.tree.genesis_hash = genesis.hash := by
  have := (h.holds genesis (by simp)).path.root_mem
  rw [genesis_line] at this
  exact List.mem_singleton.mp this

theorem a₂_ne : a₂.hash ≠ genesis.hash ∧ a₂.hash ≠ a₁.hash := by
  have hfresh := fresh_of_sublist (all_suffix [b₄, b₃, b₂, b₁, a₃] _ rfl)
  exact ⟨(hfresh genesis (by simp)).symm, (hfresh a₁ (by simp)).symm⟩

theorem a₁_ne : a₁.hash ≠ genesis.hash :=
  (fresh_of_sublist (all_suffix [b₄, b₃, b₂, b₁, a₃, a₂] _ rfl) genesis (by simp)).symm

/-- The tip is on the line of the head. -/
theorem Knows.tip_onLine (h : Knows n S a₂ [a₂, a₁, genesis] ∅) :
    a₂.hash ≠ n.tree.genesis_hash ∧ OnLine n.tree a₂.hash n.tree.head := by
  refine ⟨h.genesis_eq ▸ a₂_ne.1, _, h.head ▸ (h.holds a₂ (by simp)).path, ?_⟩
  simp [a₂_line]

/-- Without the tip, the block below it is the heaviest, and it is no tip. -/
theorem Knows.stump (h : Knows n S a₂ [a₂, a₁, genesis] ∅) (hw : Weighted n.tree) :
    ¬ ∃ x, Heaviest (marked n.tree a₂.hash) x ∧
      ((marked n.tree a₂.hash).is_tip x = true ∨ x = n.tree.genesis_hash) := by
  have hg := h.genesis_eq
  have hp₁ := (h.holds a₁ (by simp)).path
  have hp₂ := (h.holds a₂ (by simp)).path
  have hstump : Survives (marked n.tree a₂.hash) a₁.hash := by
    refine ⟨_, hp₁, (h.holds a₁ (by simp)).known, fun x hx hne hconv => ?_⟩
    rw [a₁_line, List.mem_pair] at hx
    rcases hx with rfl | rfl
    · simp only [marked, h.convicted, Std.ExtTreeSet.mem_insert, compare_eq_iff_eq] at hconv
      exact a₂_ne.2 (by simpa using hconv)
    · exact hne hg.symm
  rintro ⟨x, ⟨hx, hmax⟩, htop⟩
  obtain ⟨l, hl, hk, hfree⟩ := hx
  obtain ⟨s, hs, rfl⟩ := h.only x (.inl hk)
  simp only [List.mem_cons, List.not_mem_nil, or_false] at hs
  rcases hs with rfl | rfl | rfl
  · exact hfree _ hl.start_mem (hg ▸ a₂_ne.1) (by simp [marked])
  · rcases htop with htip | he
    · have hchild : n.tree.parent a₂.hash = some a₁.hash := by
        rw [a₂_line] at hp₂
        obtain ⟨p, -, hp, hrest⟩ := hp₂.uncons (by simp)
        obtain ⟨-, he, -, -⟩ := hrest.uncons (by simp)
        rw [hp, he]
      obtain ⟨hd, hb, hprev⟩ := Option.map_eq_some_iff.mp hchild
      have := List.all_eq_true.mp htip hd (SumMap.mem_values.mpr ⟨_, hb⟩)
      simp [hprev] at this
    · exact a₁_ne (he.trans hg)
  · have hpos := hw.others _ (h.holds a₁ (by simp)).known (hg ▸ a₁_ne)
    have hzero := hw.genesis
    rw [hg] at hzero
    rcases hmax _ hstump with hlt | ⟨heq, -⟩ <;> simp only [marked, hzero] at *
    · exact absurd hlt (UInt64.not_lt.mpr UInt64.zero_le)
    · exact absurd (heq ▸ hpos) (UInt64.lt_irrefl _)

end Toy

theorem weighted_run (ops : List Op) (hops : ∀ depth, Op.set_prune_depth depth ∉ ops) :
    Weighted ((Logged.new [5] none Toy.grow_params).run ops).tree := by
  have hc : Coherent [5] Toy.grow_params (.new [5] none Toy.grow_params) _ := coherent_new (by decide) none
  obtain ⟨S, -, -, hw⟩ := unpruned_run hc (unpruned_new none) (weighted_new none) ops hops
  exact hw

theorem conviction_finds_heaviest_tip :
    let t := Toy.root.run (deliver [Toy.genesis.block Toy.alpha, Toy.a₁.block Toy.alpha])
    (Toy.a₂.hash ≠ t.genesis_hash ∧ OnLine t Toy.a₂.hash t.head) ∧
      (Heaviest (t.convict Toy.a₂.hash).2 (t.convict Toy.a₂.hash).2.head ↔
        ∃ h, Heaviest (marked t Toy.a₂.hash) h ∧ ((marked t Toy.a₂.hash).is_tip h = true ∨ h = t.genesis_hash)) := by
  intro t
  have ht : t = Toy.root.run (deliver [Toy.genesis.block Toy.alpha, Toy.a₁.block Toy.alpha]) := rfl
  clear_value t
  obtain ⟨S, h⟩ := Toy.knows_a₂
  have hops : ∀ depth, Op.set_prune_depth depth ∉ deliver [Toy.genesis.block Toy.alpha, Toy.a₁.block Toy.alpha] := by
    simp [deliver]
  have hiff := conviction_finds_heaviest [5] none Toy.grow_params (by decide) _ hops Toy.a₂.hash
  have hon := h.tip_onLine
  rw [Toy.root_run_tree, ← ht] at hon
  rw [show BlockTree.new [5] none Toy.grow_params = Toy.root from rfl, ← ht] at hiff
  exact ⟨hon, hiff hon.1 hon.2⟩

/-- Convicting the tip puts the head back to genesis, past a block that survives. -/
theorem conviction_skips_the_stump : ¬ ∀ (ops : List Op) (b : String), (∀ depth, Op.set_prune_depth depth ∉ ops) →
    let t := Toy.root.run ops
    b ≠ t.genesis_hash → OnLine t b t.head → Heaviest (t.convict b).2 (t.convict b).2.head := by
  intro hclaim
  obtain ⟨S, h⟩ := Toy.knows_a₂
  have hops : ∀ depth, Op.set_prune_depth depth ∉ deliver [Toy.genesis.block Toy.alpha, Toy.a₁.block Toy.alpha] := by
    simp [deliver]
  have hon := h.tip_onLine
  have hbest := hclaim _ Toy.a₂.hash hops (Toy.root_run_tree _ ▸ hon.1) (Toy.root_run_tree _ ▸ hon.2)
  rw [← Toy.root_run_tree] at hbest
  have hw := weighted_run _ hops
  exact h.stump hw ((h.coherent.convict_heaviest_iff h.unpruned hw hon.1 hon.2).mp hbest)

end Sestrian
