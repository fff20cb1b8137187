import Mathlib.Data.List.Induction
import Sestrian.Code.Bytes
import Sestrian.Tree.LeafCache

/-!
# Fork choice does not depend on the order of arrival

A block is judged at its parent, by what its own line holds. So a tree that is fed a set of
blocks, parents first, ends with the same entries in any order. The head is then the best of
them.
-/

open Walk Check

namespace Sestrian

open Aggregate Pages BlockTree

section Any

variable [Crypto]

/-- The state of a node that has only been given blocks, each of which kept the leaf cache. -/
structure Fed (genesis_w : List Int64) (dc : Option String) (params : GenesisParams) (n : Logged)
    (S : String → List Int64 × ModelState) : Prop where
  coherent : Coherent genesis_w params n S
  unpruned : n.tree.Unpruned
  cache : CacheRight n S
  unmarked : n.tree.convicted = ∅ ∧ n.tree.hash_verified = ∅
  contributor : n.tree.data_contributor = dc
  only_known : ∀ h, h ∈ n.tree.ledger ∨ h ∈ n.tree.cum_work → h ∈ n.tree.blocks
  root : n.tree.genesis_hash = (BlockTree.new genesis_w dc params).genesis_hash

variable {genesis_w : List Int64} {dc : Option String} {params : GenesisParams} {n n' : Logged}
  {S S' : String → List Int64 × ModelState}

theorem fed_new (hw : genesis_w.length = (ModelState.genesis params.spec).dim) :
    Fed genesis_w dc params (.new genesis_w dc params) fun _ => (genesis_w, ModelState.genesis params.spec) := by
  refine ⟨coherent_new hw dc, unpruned_new dc, rfl, ⟨rfl, rfl⟩, rfl, fun h hh => ?_, rfl⟩
  rcases hh with hh | hh <;>
  · rcases (mem_insert_iff _ _ _ _).mp hh with rfl | hh
    · exact (mem_insert_iff _ _ _ _).mpr (.inl rfl)
    · simp at hh

/-- What a block stands for is fixed by the tree. -/
theorem Coherent.unique (hc : Coherent genesis_w params n S) (hc' : Coherent genesis_w params n S') {h : String}
    (hh : h ∈ n.tree.blocks) : S' h = S h := by
  obtain ⟨chain, hch⟩ := hc.chain hh
  rw [← hc.replay_eq hch, hc'.replay_eq hch]

/-- The second node knows block `h` as the first one does. -/
structure Agree (n : Logged) (S : String → List Int64 × ModelState) (n' : Logged)
    (S' : String → List Int64 × ModelState) (h : String) : Prop where
  blocks : n'.tree.blocks[h]? = n.tree.blocks[h]?
  ledger : n'.tree.ledger[h]? = n.tree.ledger[h]?
  model : n'.tree.model[h]? = n.tree.model[h]?
  work : n'.tree.cum_work[h]? = n.tree.cum_work[h]?
  state : S' h = S h

omit [Crypto] in
theorem Agree.trans {n'' : Logged} {S'' : String → List Int64 × ModelState} {h : String} (h₁ : Agree n S n' S' h)
    (h₂ : Agree n' S' n'' S'' h) : Agree n S n'' S'' h :=
  ⟨h₂.blocks.trans h₁.blocks, h₂.ledger.trans h₁.ledger, h₂.model.trans h₁.model, h₂.work.trans h₁.work,
    h₂.state.trans h₁.state⟩

omit [Crypto] in
theorem Agree.symm {h : String} (ha : Agree n S n' S' h) : Agree n' S' n S h :=
  ⟨ha.blocks.symm, ha.ledger.symm, ha.model.symm, ha.work.symm, ha.state.symm⟩

omit [Crypto] in
theorem Agree.known {h : String} (ha : Agree n S n' S' h) (hh : h ∈ n.tree.blocks) : h ∈ n'.tree.blocks := by
  rw [Std.ExtTreeMap.mem_iff_isSome_getElem?] at hh ⊢
  rwa [ha.blocks]

/-! ## One block -/

theorem Fed.connect (hf : Fed genesis_w dc params n S) {b : Block} {p : Parent} {staged : Staged}
    (ha : n.tree.Accepts S b p staged) (hk : KeepsLeaves n.tree (.add_block b)) :
    Fed genesis_w dc params (n.connected S b p staged) (state_with params S b) := by
  have hup := hf.unpruned.connected (S := S) b p staged
  have hr := hf.cache.connect hf.coherent ha hk
  rw [hup.prune_deep] at hr
  refine ⟨hf.coherent.connected hf.unpruned ha, hup, hr, ?_, ?_, fun h hh => ?_, ?_⟩
  · simp only [Logged.connected, BlockTree.connected]
    split <;> exact hf.unmarked
  · simp only [Logged.connected, BlockTree.connected]
    split <;> exact hf.contributor
  · simp only [Logged.connected, connected_frame, mem_insert_iff] at hh ⊢
    exact hh.elim (fun h => h.imp id fun h => hf.only_known _ (.inl h))
      fun h => h.imp id fun h => hf.only_known _ (.inr h)
  · simp only [Logged.connected, connected_frame]
    exact hf.root

/-- A connected block changes nothing about the others. -/
theorem agree_connected {b : Block} {p : Parent} {staged : Staged} (ha : n.tree.Accepts S b p staged) {h : String}
    (hh : h ∈ n.tree.blocks) : Agree n S (n.connected S b p staged) (state_with params S b) h := by
  have hne : b.hash ≠ h := fun he => ha.fresh (he ▸ hh)
  refine ⟨?_, ?_, ?_, ?_, Function.update_of_ne hne.symm _ _⟩ <;>
    simp [Logged.connected, connected_frame, hne]

/-- Everything `add_block` can do to such a node. -/
theorem Fed.step_cases (hf : Fed genesis_w dc params n S) (b : Block) :
    n.step (.add_block b) = n ∨
    ∃ p staged, n.tree.Accepts S b p staged ∧ n.step (.add_block b) = n.connected S b p staged := by
  rcases hf.coherent.add_block_cases b with ⟨e, he⟩ | ⟨-, he⟩ | ⟨p, staged, ha, -⟩
  · exact .inl (by simp [Logged.step, BlockTree.step, he])
  · exact .inl (by simp [Logged.step, BlockTree.step, he])
  · exact .inr ⟨p, staged, ha, hf.coherent.step_accepts hf.unpruned ha⟩

/-! ## A run -/

/-- A run keeps what the node knows, and learns nothing but delivered blocks. -/
theorem Fed.run (hf : Fed genesis_w dc params n S) (bs : List Block) (hk : Along KeepsLeaves n.tree (deliver bs)) :
    ∃ S', Fed genesis_w dc params (n.run (deliver bs)) S' ∧
      (∀ h ∈ n.tree.blocks, Agree n S (n.run (deliver bs)) S' h) ∧
      ∀ h ∈ (n.run (deliver bs)).tree.blocks, h ∈ n.tree.blocks ∨ ∃ b ∈ bs, b.hash = h := by
  induction bs generalizing n S with
  | nil => exact ⟨S, hf, fun h _ => ⟨rfl, rfl, rfl, rfl, rfl⟩, fun h hh => .inl hh⟩
  | cons b bs ih =>
    obtain ⟨hb, hk⟩ := hk
    rcases hf.step_cases b with hsame | ⟨p, staged, ha, hstep⟩
    · have hrun : n.run (deliver (b :: bs)) = n.run (deliver bs) := by
        simp only [deliver, Logged.run, List.map_cons, List.foldl_cons, hsame]
      have htree : n.tree.step (.add_block b) = n.tree := congrArg Logged.tree hsame
      obtain ⟨S', hf', hag, hlearn⟩ := ih hf (htree ▸ hk)
      rw [hrun]
      exact ⟨S', hf', hag, fun h hh => (hlearn h hh).imp id fun ⟨x, hx, he⟩ => ⟨x, List.mem_cons_of_mem _ hx, he⟩⟩
    · have hrun : n.run (deliver (b :: bs)) = (n.connected S b p staged).run (deliver bs) := by
        simp only [deliver, Logged.run, List.map_cons, List.foldl_cons, hstep]
      have htree : n.tree.step (.add_block b) = (n.connected S b p staged).tree := congrArg Logged.tree hstep
      obtain ⟨S', hf', hag, hlearn⟩ := ih (hf.connect ha hb) (htree ▸ hk)
      have hknown (h : String) : h ∈ (n.connected S b p staged).tree.blocks ↔ h = b.hash ∨ h ∈ n.tree.blocks := by
        simp only [Logged.connected, connected_frame, mem_insert_iff]
      rw [hrun]
      refine ⟨S', hf', fun h hh => (agree_connected ha hh).trans (hag h ((hknown h).mpr (.inr hh))), fun h hh => ?_⟩
      rcases hlearn h hh with hh | ⟨x, hx, he⟩
      · rcases (hknown h).mp hh with rfl | hh
        · exact .inr ⟨b, List.mem_cons_self, rfl⟩
        · exact .inl hh
      · exact .inr ⟨x, List.mem_cons_of_mem _ hx, he⟩

/-! ## A block is judged alike everywhere -/

omit [Crypto] in
theorem recent_proposers_congr {t t' : BlockTree} {tip : String} {l : List String}
    (hl : Path t.parent t.genesis_hash tip l) (hg : t'.genesis_hash = t.genesis_hash)
    (hb : ∀ x ∈ l, t'.blocks[x]? = t.blocks[x]?) : t'.recent_proposers tip = t.recent_proposers tip := by
  obtain ⟨hw, hm⟩ := walk_congr (f := t'.parent) (· = t.genesis_hash) hl (by simp)
    (fun x hx => by simp only [parent, hb x hx]) PROPOSER_LOOKBACK
  simp only [recent_proposers, hg, hw]
  congr 1
  exact List.filterMap_congr fun x hx => by rw [hb x (hm x hx)]

/-- Validation reads the weights, the leaf cache and the settings of the tree. -/
theorem validate_at_base_congr {t t' : BlockTree} (b : Block) (p : Parent) (hcanon : t'.canon = t.canon)
    (hleaves : t'.page_leaves = t.page_leaves) (hparams : t'.params = t.params)
    (hdc : t'.data_contributor = t.data_contributor) (hv : t'.hash_verified = t.hash_verified) :
    t'.validate_at_base b p = t.validate_at_base b p := by
  have htx : t'.check_sparse_tx b p.model = t.check_sparse_tx b p.model := by
    funext tx
    simp only [check_sparse_tx, hcanon, hparams, hv]
  simp only [validate_at_base, htx, hdc, hparams, state_root_with_congr hcanon hleaves]

theorem Fed.leaves_at (hf : Fed genesis_w dc params n S) {h : String} (hh : h ∈ n.tree.blocks)
    (hsame : h ≠ n.tree.head → SameGrowth n.tree h) :
    n.tree.leaves_at S h = leaves_for (S h).1 (S h).2 :=
  hf.coherent.moved_leaves hf.cache hh hsame fun _ _ _ hw x hx =>
    (hf.unpruned.walk_kept hf.coherent.shape hw x hx).1

/-- What one node accepts, another one that knows the line of its parent accepts too. -/
theorem Fed.accepts_of_agree (hf : Fed genesis_w dc params n S) (hf' : Fed genesis_w dc params n' S')
    (hg : n'.tree.genesis_hash = n.tree.genesis_hash) {b : Block} {p : Parent} {staged : Staged}
    (ha : n.tree.Accepts S b p staged) (hk : KeepsLeaves n.tree (.add_block b))
    (hk' : KeepsLeaves n'.tree (.add_block b)) (hfresh : b.hash ∉ n'.tree.blocks)
    (hline : ∀ l, Path n.tree.parent n.tree.genesis_hash b.header.prev_hash l → ∀ x ∈ l, Agree n S n' S' x) :
    n'.tree.Accepts S' b p staged := by
  obtain ⟨l, hl⟩ := hf.coherent.shape.line _ ha.parent_known
  have hprev := hline l hl _ hl.start_mem
  have hknown := hprev.known ha.parent_known
  have hentries : n'.tree.parent_entries b.header.prev_hash = .ok p := by
    have hj := recent_proposers_congr hl hg fun x hx => (hline l hl x hx).blocks
    simp only [← ha.entries, parent_entries, hprev.blocks, hprev.ledger, hprev.model, hprev.work, hj]
  refine ⟨hfresh, by simp [hf'.unmarked.1], hknown, hentries, fun _ _ _ hw x hx =>
    (hf'.unpruned.walk_kept hf'.coherent.shape hw x hx).1, ?_⟩
  rw [← ha.valid]
  refine validate_at_base_congr b p (congrArg Prod.fst hprev.state) ?_ ?_ ?_ ?_
  · simp only [moved_to, hf.leaves_at ha.parent_known hk.2, hf'.leaves_at hknown hk'.2, hprev.state]
  · exact hf'.coherent.same_params.trans hf.coherent.same_params.symm
  · exact hf'.contributor.trans hf.contributor.symm
  · exact hf'.unmarked.2.trans hf.unmarked.2.symm

/-! ## Two orders -/

/-- Every block comes after its parent. -/
def ParentsFirst (genesis : String) (bs : List Block) : Prop :=
  ∀ pre b post, bs = pre ++ b :: post → b.header.prev_hash = genesis ∨ ∃ x ∈ pre, x.hash = b.header.prev_hash

omit [Crypto] in
/-- Two nodes that agree with a third one on its line have one line for a block. -/
theorem Agree.line {n'' : Logged} {S'' : String → List Int64 × ModelState} (hs : n.tree.Shape) (hs' : n'.tree.Shape)
    (hg : n'.tree.genesis_hash = n.tree.genesis_hash) (h₁ : ∀ h ∈ n.tree.blocks, Agree n S n'' S'' h)
    (h₂ : ∀ h ∈ n'.tree.blocks, Agree n' S' n'' S'' h) {tip : String} (htip : tip ∈ n'.tree.blocks) {l : List String}
    (hl : Path n.tree.parent n.tree.genesis_hash tip l) : ∀ x ∈ l, Agree n S n' S' x := by
  obtain ⟨l', hl'⟩ := hs'.line tip htip
  have hp : Path n''.tree.parent n.tree.genesis_hash tip l :=
    hl.mono fun x hx _ => by simp only [parent, (h₁ x (hs.line_known hl x hx)).blocks]
  have hp' : Path n''.tree.parent n.tree.genesis_hash tip l' :=
    hg ▸ hl'.mono fun x hx _ => by simp only [parent, (h₂ x (hs'.line_known hl' x hx)).blocks]
  obtain rfl := hp.unique hp'
  exact fun x hx => (h₁ x (hs.line_known hl x hx)).trans (h₂ x (hs'.line_known hl' x hx)).symm

omit [Crypto] in
theorem deliver_append (bs bs' : List Block) : deliver (bs ++ bs') = deliver bs ++ deliver bs' := by
  simp [deliver]

/-- A block that one node accepts is known to every run that delivers it, parents first. -/
theorem Fed.learns (hf : Fed genesis_w dc params n S)
    (hw : genesis_w.length = (ModelState.genesis params.spec).dim) {o : List Block} (hnodup : (o.map Block.hash).Nodup)
    (hfirst : ParentsFirst (BlockTree.new genesis_w dc params).genesis_hash o)
    (hk : Along KeepsLeaves (BlockTree.new genesis_w dc params) (deliver o))
    (hend : Fed genesis_w dc params ((Logged.new genesis_w dc params).run (deliver o)) S')
    (hag : ∀ h ∈ n.tree.blocks, Agree n S ((Logged.new genesis_w dc params).run (deliver o)) S' h)
    {b : Block} {p : Parent} {staged : Staged} (hb : b ∈ o) (ha : n.tree.Accepts S b p staged)
    (hkb : KeepsLeaves n.tree (.add_block b)) :
    Agree (n.connected S b p staged) (state_with params S b)
      ((Logged.new genesis_w dc params).run (deliver o)) S' b.hash := by
  obtain ⟨pre, post, rfl⟩ := List.append_of_mem hb
  have hf₀ : Fed genesis_w dc params (.new genesis_w dc params) _ := fed_new hw
  rw [deliver_append] at hk
  obtain ⟨hk₁, hk₂⟩ := along_append.mp hk
  -- the second node when it meets the block
  obtain ⟨S₁, hf₁, -, hlearn₁⟩ := hf₀.run pre hk₁
  set n₁ := (Logged.new genesis_w dc params).run (deliver pre) with hn₁
  have htree : (BlockTree.new genesis_w dc params).run (deliver pre) = n₁.tree :=
    ((Logged.new genesis_w dc params).run_tree (deliver pre)).symm
  have hrun : (Logged.new genesis_w dc params).run (deliver (pre ++ b :: post)) = n₁.run (deliver (b :: post)) := by
    rw [deliver_append, Logged.run, List.foldl_append]
    rfl
  rw [hrun] at hend hag ⊢
  rw [htree] at hk₂
  obtain ⟨S₂, hf₂, hag₂, hlearn₂⟩ := hf₁.run (b :: post) hk₂
  have hag₁ : ∀ h ∈ n₁.tree.blocks, Agree n₁ S₁ (n₁.run (deliver (b :: post))) S' h := fun h hh =>
    { hag₂ h hh with
      state := (hf₂.coherent.unique hend.coherent ((hag₂ h hh).known hh)).trans (hag₂ h hh).state }
  have hdisj : ∀ x ∈ pre, ∀ y ∈ b :: post, x.hash ≠ y.hash := by
    intro x hx y hy he
    rw [List.map_append] at hnodup
    have hx' := List.mem_map_of_mem (f := Block.hash) hx
    rw [he] at hx'
    exact List.disjoint_of_nodup_append hnodup hx' (List.mem_map_of_mem hy)
  have hfresh : b.hash ∉ n₁.tree.blocks := by
    intro hk
    rcases hlearn₁ _ hk with hg | ⟨x, hx, he⟩
    · rcases (mem_insert_iff _ _ _ _).mp hg with he | he
      · rw [show (genesis_header genesis_w params).block_hash = _ from hf.root.symm] at he
        exact ha.fresh (he ▸ hf.coherent.shape.genesis_known)
      · simp at he
    · exact hdisj x hx b List.mem_cons_self he
  have hprev : b.header.prev_hash ∈ n₁.tree.blocks := by
    rcases hfirst pre b post rfl with hg | ⟨x, hx, he⟩
    · rw [hg, ← hf₁.root]
      exact hf₁.coherent.shape.genesis_known
    · rcases hlearn₂ _ ((hag _ ha.parent_known).known ha.parent_known) with hk | ⟨y, hy, hey⟩
      · exact hk
      · exact absurd (he.trans hey.symm) (hdisj x hx y hy)
  have ha₁ := hf.accepts_of_agree hf₁ (hf₁.root.trans hf.root.symm) ha hkb hk₂.1 hfresh fun l hl =>
    Agree.line hf.coherent.shape hf₁.coherent.shape (hf₁.root.trans hf.root.symm) hag hag₁ hprev hl
  have hcon := hf₁.coherent.step_accepts hf₁.unpruned ha₁
  have hrest : n₁.run (deliver (b :: post)) = (n₁.connected S₁ b p staged).run (deliver post) := by
    rw [← hcon]
    rfl
  have hk₃ : Along KeepsLeaves (n₁.connected S₁ b p staged).tree (deliver post) := by
    rw [← hcon]
    exact hk₂.2
  obtain ⟨S₃, hf₃, hag₃, -⟩ := (hf₁.connect ha₁ hk₂.1).run post hk₃
  rw [← hrest] at hf₃ hag₃
  have hnew : b.hash ∈ (n₁.connected S₁ b p staged).tree.blocks := by
    simp [Logged.connected, connected_frame]
  have hown : Agree (n.connected S b p staged) (state_with params S b) (n₁.connected S₁ b p staged)
      (state_with params S₁ b) b.hash := by
    have hstate : S₁ b.header.prev_hash = S b.header.prev_hash :=
      (hag₁ _ hprev).state.symm.trans (hag _ ha.parent_known).state
    refine ⟨?_, ?_, ?_, ?_, ?_⟩
    all_goals simp [Logged.connected, connected_frame, state_with, hstate]
  have hlast := hown.trans (hag₃ _ hnew)
  exact { hlast with
    state := (hf₃.coherent.unique hend.coherent ((hag₃ _ hnew).known hnew)).trans hlast.state }

/-- Wherever the first run gets to, the second one ends up knowing the same. -/
theorem fed_agree (hw : genesis_w.length = (ModelState.genesis params.spec).dim) {o o' : List Block}
    (hsub : ∀ b ∈ o, b ∈ o') (hnodup : (o'.map Block.hash).Nodup)
    (hfirst : ParentsFirst (BlockTree.new genesis_w dc params).genesis_hash o')
    (hk' : Along KeepsLeaves (BlockTree.new genesis_w dc params) (deliver o'))
    (hend : Fed genesis_w dc params ((Logged.new genesis_w dc params).run (deliver o')) S')
    (hf : Fed genesis_w dc params n S) (hk : Along KeepsLeaves n.tree (deliver o))
    (hag : ∀ h ∈ n.tree.blocks, Agree n S ((Logged.new genesis_w dc params).run (deliver o')) S' h) :
    ∃ S₁, Fed genesis_w dc params (n.run (deliver o)) S₁ ∧
      ∀ h ∈ (n.run (deliver o)).tree.blocks,
        Agree (n.run (deliver o)) S₁ ((Logged.new genesis_w dc params).run (deliver o')) S' h := by
  induction o generalizing n S with
  | nil => exact ⟨S, hf, hag⟩
  | cons b o ih =>
    have hstep : n.run (deliver (b :: o)) = (n.step (.add_block b)).run (deliver o) := rfl
    rw [hstep]
    have hsub' : ∀ x ∈ o, x ∈ o' := fun x hx => hsub x (List.mem_cons_of_mem _ hx)
    have hk₂ : Along KeepsLeaves (n.step (.add_block b)).tree (deliver o) := hk.2
    rcases hf.step_cases b with hsame | ⟨p, staged, ha, hcon⟩
    · rw [hsame] at hk₂ ⊢
      exact ih hsub' hf hk₂ hag
    · rw [hcon] at hk₂ ⊢
      refine ih hsub' (hf.connect ha hk.1) hk₂ fun h hh => ?_
      simp only [Logged.connected, connected_frame, mem_insert_iff] at hh
      rcases hh with rfl | hh
      · exact hf.learns hw hnodup hfirst hk' hend hag (hsub b List.mem_cons_self) ha hk.1
      · exact (agree_connected ha hh).symm.trans (hag h hh)

/-! ## The head -/

/-- The head has the most work, and of several such blocks the smallest hash. -/
def HeadIsBest (t : BlockTree) : Prop :=
  ∃ best, t.cum_work[t.head]? = some best ∧
    ∀ h w, t.cum_work[h]? = some w → w < best ∨ w = best ∧ t.head ≤ h

omit [Crypto] in
theorem work_with_gt {p : Parent} {b : Block} (h : work_with p b < u64_max) : p.work < work_with p b := by
  have hmax : u64_max.toNat = 2 ^ 64 - 1 := rfl
  rw [UInt64.lt_iff_toNat_lt] at h ⊢
  simp only [work_with, toNat_saturating_add, toNat_max, show (1 : UInt64).toNat = 1 from rfl] at h ⊢
  omega

omit [Crypto] in
theorem outweighs_iff {t : BlockTree} {best : UInt64} (hbest : t.cum_work[t.head]? = some best) (bh : String)
    (w : UInt64) : t.outweighs bh w = true ↔ best < w ∨ w = best ∧ bh < t.head := by
  simp [outweighs, hbest]

/-- A block that becomes the head has more work than the head, or as much and a smaller hash. -/
theorem adopts_better {t : BlockTree} {b : Block} {p : Parent} {staged : Staged} (ha : t.Accepts S b p staged)
    {best : UInt64} (hbest : t.cum_work[t.head]? = some best) (hw : work_with p b < u64_max)
    (had : t.adopts b p = true) : best < work_with p b ∨ work_with p b = best ∧ b.hash < t.head := by
  rcases (Bool.or_eq_true _ _).mp had with hprev | hout
  · left
    have hprev : b.header.prev_hash = t.head := by simpa using hprev
    have hpw := (parent_entries_spec ha.entries).2.2.1
    rw [hprev, hbest] at hpw
    exact Option.some.inj hpw ▸ work_with_gt hw
  · exact (outweighs_iff hbest _ _).mp hout

theorem HeadIsBest.connect (h : HeadIsBest n.tree) (hf : Fed genesis_w dc params n S) {b : Block} {p : Parent}
    {staged : Staged} (ha : n.tree.Accepts S b p staged) (hw : work_with p b < u64_max) :
    HeadIsBest (n.tree.connected S b p staged) := by
  obtain ⟨best, hbest, hall⟩ := h
  have hhead : b.hash ≠ n.tree.head := fun he => ha.fresh (he ▸ hf.coherent.shape.head_known)
  unfold HeadIsBest
  simp only [connected_frame, SumMap.get_insert]
  cases had : n.tree.adopts b p with
  | true =>
    refine ⟨work_with p b, by simp, fun x w hx => ?_⟩
    simp only [if_true] at hx ⊢
    split at hx
    · next hbx => exact .inr ⟨(Option.some.inj hx).symm, hbx ▸ le_rfl⟩
    · rcases adopts_better ha hbest hw had with hlt | ⟨heq, hbh⟩
      · rcases hall x w hx with hxw | ⟨rfl, -⟩
        · exact .inl (UInt64.lt_trans hxw hlt)
        · exact .inl hlt
      · rw [heq]
        exact (hall x w hx).imp id fun ⟨hwb, hle⟩ => ⟨hwb, (hbh.trans_le hle).le⟩
  | false =>
    refine ⟨best, by simp [hhead, hbest], fun x w hx => ?_⟩
    simp only [Bool.false_eq_true, if_false] at hx ⊢
    split at hx
    · next hbx =>
      obtain rfl := Option.some.inj hx
      subst hbx
      have hout : ¬ (n.tree.outweighs b.hash (work_with p b) = true) := by
        simp only [adopts, Bool.or_eq_false_iff] at had
        simp [had.2]
      rw [outweighs_iff hbest, not_or] at hout
      rcases UInt64.lt_or_eq_of_le (UInt64.not_lt.mp hout.1) with hlt | heq
      · exact .inl hlt
      · exact .inr ⟨heq, not_lt.mp fun hlt => hout.2 ⟨heq, hlt⟩⟩
    · exact hall x w hx

theorem headIsBest_new : HeadIsBest (BlockTree.new genesis_w dc params) := by
  refine ⟨0, by simp [BlockTree.new], fun h w hw => ?_⟩
  simp only [BlockTree.new, SumMap.get_insert] at hw ⊢
  split at hw
  · next hh => exact .inr ⟨(Option.some.inj hw).symm, hh ▸ le_rfl⟩
  · simp at hw

/-- No cumulative work has reached the end of `u64`. -/
def WorkBelowMax (t : BlockTree) : Prop := ∀ (h : String) (w : UInt64), t.cum_work[h]? = some w → w < u64_max

theorem HeadIsBest.run (h : HeadIsBest n.tree) (hf : Fed genesis_w dc params n S) (bs : List Block)
    (hk : Along KeepsLeaves n.tree (deliver bs)) (hw : WorkBelowMax (n.run (deliver bs)).tree) :
    HeadIsBest (n.run (deliver bs)).tree := by
  induction bs generalizing n S with
  | nil => exact h
  | cons b bs ih =>
    have hstep : n.run (deliver (b :: bs)) = (n.step (.add_block b)).run (deliver bs) := rfl
    have hk₂ : Along KeepsLeaves (n.step (.add_block b)).tree (deliver bs) := hk.2
    rw [hstep] at hw ⊢
    rcases hf.step_cases b with hsame | ⟨p, staged, ha, hcon⟩
    · rw [hsame] at hk₂ hw ⊢
      exact ih h hf hk₂ hw
    · rw [hcon] at hk₂ hw ⊢
      have hf' := hf.connect ha hk.1
      obtain ⟨S', -, hag, -⟩ := hf'.run bs hk₂
      have hnew : (n.connected S b p staged).tree.cum_work[b.hash]? = some (work_with p b) := by
        simp [Logged.connected, connected_frame]
      have hmem : b.hash ∈ (n.connected S b p staged).tree.blocks := by
        simp [Logged.connected, connected_frame]
      exact ih (h.connect hf ha (hw _ _ ((hag _ hmem).work.trans hnew))) hf' hk₂ hw

/-! ## The theorem -/

/-- The trees hold the same blocks, and chose the best of them. -/
structure SameChoice (t t' : BlockTree) : Prop extends SameEntries t t' where
  head : t'.head = t.head
  best : HeadIsBest t

omit [Crypto] in
/-- Two entries that agree on what is known are one. -/
theorem dict_eq_of_agree {ν : Type} {m m' : Dict ν} {known : String → Prop} (h : ∀ k, known k → m'[k]? = m[k]?)
    (hm : ∀ k ∈ m, known k) (hm' : ∀ k ∈ m', known k) : m' = m := by
  apply Std.ExtTreeMap.ext_getElem?
  intro k
  by_cases hk : known k
  · exact h k hk
  · rw [Std.ExtTreeMap.getElem?_eq_none fun hc => hk (hm' k hc),
      Std.ExtTreeMap.getElem?_eq_none fun hc => hk (hm k hc)]

theorem Fed.same_entries (hf : Fed genesis_w dc params n S) (hf' : Fed genesis_w dc params n' S')
    {S₁ S₂ : String → List Int64 × ModelState} (hag : ∀ h ∈ n.tree.blocks, Agree n S₁ n' S₂ h)
    (hback : ∀ h ∈ n'.tree.blocks, h ∈ n.tree.blocks) : SameEntries n.tree n'.tree where
  blocks := dict_eq_of_agree (fun k hk => (hag k hk).blocks) (fun _ hk => hk) hback
  ledger := dict_eq_of_agree (fun k hk => (hag k hk).ledger) (fun k hk => hf.only_known k (.inl hk))
    fun k hk => hback k (hf'.only_known k (.inl hk))
  model := dict_eq_of_agree (fun k hk => (hag k hk).model) hf.coherent.only_known
    fun k hk => hback k (hf'.coherent.only_known k hk)
  cum_work := dict_eq_of_agree (fun k hk => (hag k hk).work) (fun k hk => hf.only_known k (.inr hk))
    fun k hk => hback k (hf'.only_known k (.inr hk))
  genesis_hash := hf'.root.trans hf.root.symm

omit [Crypto] in
theorem HeadIsBest.unique {t t' : BlockTree} (h : HeadIsBest t) (h' : HeadIsBest t')
    (hw : t'.cum_work = t.cum_work) : t'.head = t.head := by
  obtain ⟨best, hb, hall⟩ := h
  obtain ⟨best', hb', hall'⟩ := h'
  rw [hw] at hb' hall'
  rcases hall _ _ hb' with hlt | ⟨rfl, hle⟩
  · rcases hall' _ _ hb with hlt' | ⟨rfl, -⟩
    · exact absurd hlt' (UInt64.lt_asymm hlt)
    · exact absurd hlt (UInt64.lt_irrefl _)
  · rcases hall' _ _ hb with hlt' | ⟨-, hle'⟩
    · exact absurd hlt' (UInt64.lt_irrefl _)
    · exact le_antisymm hle' hle

/-- Two orders of one set of blocks, parents first, end in one tree and one head. -/
theorem fork_choice_order_free (genesis_w : List Int64) (dc : Option String) (params : GenesisParams)
    (hw : genesis_w.length = (ModelState.genesis params.spec).dim) (o o' : List Block) (hperm : o.Perm o')
    (hnodup : (o.map Block.hash).Nodup) :
    let t₀ := BlockTree.new genesis_w dc params
    ParentsFirst t₀.genesis_hash o → ParentsFirst t₀.genesis_hash o' →
      Along KeepsLeaves t₀ (deliver o) → Along KeepsLeaves t₀ (deliver o') → WorkBelowMax (t₀.run (deliver o)) →
        SameChoice (t₀.run (deliver o)) (t₀.run (deliver o')) := by
  intro t₀ hfirst hfirst' hk hk' hmax
  have hf₀ : Fed genesis_w dc params (.new genesis_w dc params) _ := fed_new hw
  have hnodup' : (o'.map Block.hash).Nodup := (hperm.map _).nodup_iff.mp hnodup
  obtain ⟨S, hf, hag₀, -⟩ := hf₀.run o hk
  obtain ⟨S', hf', hag₀', -⟩ := hf₀.run o' hk'
  obtain ⟨S₁, -, hag⟩ := fed_agree hw (fun b hb => hperm.mem_iff.mp hb) hnodup' hfirst' hk' hf' hf₀ hk hag₀'
  obtain ⟨S₂, -, hag'⟩ := fed_agree hw (fun b hb => hperm.mem_iff.mpr hb) hnodup hfirst hk hf hf₀ hk' hag₀
  have hsame := hf.same_entries hf' hag fun h hh => (hag' h hh).known hh
  have hmax' : WorkBelowMax ((Logged.new genesis_w dc params).run (deliver o')).tree := by
    unfold WorkBelowMax
    rw [hsame.cum_work, Logged.run_tree]
    exact hmax
  have hbest := headIsBest_new.run hf₀ o hk (by rw [Logged.run_tree]; exact hmax)
  have hbest' := headIsBest_new.run hf₀ o' hk' hmax'
  have hchoice : SameChoice _ _ := { hsame with head := hbest.unique hbest' hsame.cum_work, best := hbest }
  rw [Logged.run_tree, Logged.run_tree] at hchoice
  exact hchoice

theorem parentsFirst_nil (g : String) : ParentsFirst g [] := fun pre b post he => by simp at he

theorem parentsFirst_snoc {g : String} {bs : List Block} {b : Block} (h : ParentsFirst g bs)
    (hb : b.header.prev_hash = g ∨ ∃ x ∈ bs, x.hash = b.header.prev_hash) : ParentsFirst g (bs ++ [b]) := by
  intro pre x post he
  rcases List.eq_nil_or_concat post with rfl | ⟨post, y, rfl⟩
  · obtain ⟨rfl, hx⟩ := List.append_inj' he rfl
    obtain rfl := List.singleton_inj.mp hx
    exact hb
  · rw [List.concat_eq_append, ← List.cons_append, ← List.append_assoc] at he
    exact h pre x post (List.append_inj' he rfl).1

end Any

open scoped Toy

theorem Toy.Knows.workBelowMax {n : Logged} {S : String → List Int64 × ModelState} {hd : Toy.Spot}
    {ss : List Toy.Spot} {cs : StrSet} (h : Toy.Knows n S hd ss cs) (hsmall : ∀ s ∈ ss, s.parent.work < u64_max) :
    WorkBelowMax n.tree := by
  intro x w hw
  obtain ⟨s, hs, rfl⟩ := h.only x (.inr (Std.ExtTreeMap.mem_iff_isSome_getElem?.mpr (by simp [hw])))
  obtain ⟨p, hp, -, -, hpw⟩ := (h.holds s hs).entries
  obtain rfl := Option.some.inj ((parent_entries_spec hp).2.2.1.symm.trans hw)
  rw [hpw]
  exact hsmall s hs

/-- Two blocks on genesis, in both orders. -/
theorem fork_choice_order_free_siblings :
    let o := [Toy.genesis.block Toy.alpha, Toy.genesis.block Toy.beta]
    let o' := [Toy.genesis.block Toy.beta, Toy.genesis.block Toy.alpha]
    (o.map Block.hash).Nodup ∧ Along KeepsLeaves Toy.root (deliver o) ∧ Along KeepsLeaves Toy.root (deliver o') ∧
      WorkBelowMax (Toy.root.run (deliver o)) ∧
      SameChoice (Toy.root.run (deliver o)) (Toy.root.run (deliver o')) := by
  intro o o'
  have hg : Toy.genesis.hash = Toy.root.genesis_hash := (Toy.root_genesis.trans Toy.genesis_hash).symm
  have hfresh : ∀ s ∈ [Toy.a₁, Toy.genesis], s.hash ≠ Toy.b₁.hash := fun s hs =>
    Toy.fresh_of_sublist (Toy.all_suffix [Toy.b₄, Toy.b₃, Toy.b₂] _ rfl) s
      (List.mem_cons_of_mem _ (List.mem_cons_of_mem _ hs))
  have hnodup : (o.map Block.hash).Nodup := by
    simp only [o, List.map_cons, List.map_nil, Toy.hash_a₁, Toy.hash_b₁]
    simpa using hfresh Toy.a₁ (by simp)
  have hfirst (pk pk' : ByteArr 32) : ParentsFirst Toy.root.genesis_hash [Toy.genesis.block pk, Toy.genesis.block pk'] :=
    parentsFirst_snoc (parentsFirst_snoc (parentsFirst_nil _) (.inl ((Toy.Spot.block_prev _ _).trans hg)))
      (.inl ((Toy.Spot.block_prev _ _).trans hg))
  have hmax : WorkBelowMax (Toy.root.run (deliver o)) := by
    obtain ⟨S₁, h₁⟩ := Toy.knows_root.extend List.mem_cons_self (Toy.shares_self _) Toy.alpha (u := Toy.a₁) rfl
      Toy.hash_a₁ (Toy.fresh_of_sublist (Toy.all_suffix [Toy.b₄, Toy.b₃, Toy.b₂, Toy.b₁, Toy.a₃, Toy.a₂] _ rfl))
      (by simp) (by decide) (Toy.pick_head _ _)
    obtain ⟨S₂, h₂⟩ := h₁.extend (s := Toy.genesis) (by simp) Toy.before_growth.1.1 Toy.beta (u := Toy.b₁) rfl
      Toy.hash_b₁ hfresh (by simp) (by decide) rfl
    rw [← Toy.root_run_tree]
    exact h₂.workBelowMax (by decide)
  have hk := siblings_keep_leaves Toy.alpha Toy.beta
  have hk' := siblings_keep_leaves Toy.beta Toy.alpha
  exact ⟨hnodup, hk, hk', hmax, fork_choice_order_free [5] none Toy.grow_params (by decide) o o' (.swap _ _ _) hnodup
    (hfirst _ _) (hfirst _ _) hk hk' hmax⟩

/-! ## A set of blocks whose order matters -/

/-- The first branch first: its page is cached when the last block of the second one comes. -/
def alpha_first : List Block := Toy.alpha_branch ++ (Toy.beta_branch ++ [Toy.b₃.block Toy.beta])

def beta_first : List Block := (Toy.beta_branch ++ [Toy.b₃.block Toy.beta]) ++ Toy.alpha_branch

theorem alpha_first_nodup : (alpha_first.map Block.hash).Nodup := by
  have hmap : alpha_first.map Block.hash =
      [Toy.a₁, Toy.a₂, Toy.a₃, Toy.b₁, Toy.b₂, Toy.b₃, Toy.b₄].map Toy.Spot.hash := by
    simp only [alpha_first, Toy.alpha_branch, Toy.beta_branch, List.cons_append, List.nil_append, List.map_cons,
      List.map_nil, Toy.hash_a₁, Toy.hash_a₂, Toy.hash_a₃, Toy.hash_b₁, Toy.hash_b₂, Toy.hash_b₃, Toy.hash_b₄]
  have hall := List.nodup_reverse.mpr Toy.hashes_nodup
  rw [← List.map_reverse] at hall
  rw [hmap]
  exact (List.nodup_cons.mp hall).2

/-- The blocks come in chains from genesis. -/
theorem parentsFirst_chains {g : String} {pre : List Block} (h : ParentsFirst g pre) {b₁ b₂ b₃ : Block}
    (h₁ : b₁.header.prev_hash = g) (h₂ : b₁.hash = b₂.header.prev_hash) (h₃ : b₂.hash = b₃.header.prev_hash) :
    ParentsFirst g (pre ++ [b₁, b₂, b₃]) := by
  have := parentsFirst_snoc (parentsFirst_snoc (parentsFirst_snoc h (.inl h₁)) (.inr ⟨b₁, by simp, h₂⟩))
    (.inr ⟨b₂, by simp, h₃⟩)
  simpa using this

theorem alpha_first_parents : ParentsFirst Toy.root.genesis_hash alpha_first ∧
    ParentsFirst Toy.root.genesis_hash beta_first := by
  have hg : Toy.genesis.hash = Toy.root.genesis_hash := (Toy.root_genesis.trans Toy.genesis_hash).symm
  have ha {pre : List Block} (h : ParentsFirst Toy.root.genesis_hash pre) :
      ParentsFirst Toy.root.genesis_hash (pre ++ Toy.alpha_branch) :=
    parentsFirst_chains h ((Toy.Spot.block_prev _ _).trans hg) (Toy.hash_a₁.trans (Toy.Spot.block_prev _ _).symm)
      (Toy.hash_a₂.trans (Toy.Spot.block_prev _ _).symm)
  have hb {pre : List Block} (h : ParentsFirst Toy.root.genesis_hash pre) :
      ParentsFirst Toy.root.genesis_hash (pre ++ (Toy.beta_branch ++ [Toy.b₃.block Toy.beta])) := by
    rw [← List.append_assoc]
    refine parentsFirst_snoc (parentsFirst_chains h ((Toy.Spot.block_prev _ _).trans hg)
      (Toy.hash_b₁.trans (Toy.Spot.block_prev _ _).symm) (Toy.hash_b₂.trans (Toy.Spot.block_prev _ _).symm)) (.inr ?_)
    exact ⟨Toy.b₂.block Toy.beta, by simp [Toy.beta_branch], Toy.hash_b₃.trans (Toy.Spot.block_prev _ _).symm⟩
  have h₁ := hb (ha (parentsFirst_nil _))
  have h₂ := ha (hb (parentsFirst_nil _))
  rw [List.nil_append] at h₁ h₂
  exact ⟨h₁, h₂⟩

/-- Canon at the last block of the second branch, with the page of the first one cached. -/
def stale_tree : BlockTree :=
  { Toy.root with
    canon := Toy.b₃.weights
    page_leaves := refresh_leaves Toy.b₃.weights (leaves_for Toy.a₃.weights Toy.a₃.parent.model) Toy.b₃.parent.model [] }

/-- The root that the stale leaf gives is not the one in the header. -/
theorem stale_root : (stale_tree.state_root_with Toy.b₃.parent.model.spans ∅ (init_pages Toy.grow_params
    (fold_block (Toy.b₃.block Toy.beta) Toy.b₃.parent.model Toy.grow_params).2)).1 ≠
      (Toy.b₃.block Toy.beta).header.state_root := by
  decide +kernel

/-- An accepted block without deltas has the root that the cached leaves give. -/
theorem empty_state_root {t : BlockTree} {b : Block} {p : Parent} {staged : Staged} (htxs : b.txs = [])
    (h : t.validate_at_base b p = .ok staged) :
    (t.state_root_with p.model.spans ∅ (init_pages t.params (fold_block b p.model t.params).2)).1 =
      b.header.state_root := by
  simp only [validate_at_base, bind_eq_ok, require_eq_ok, pure_eq_ok] at h
  obtain ⟨tx_coords, hcoords, v, hv, -, hroot, -⟩ := h
  rw [htxs, List.mapM_nil] at hcoords
  obtain rfl := Except.ok.inj hcoords
  rwa [page_aggregate_nil htxs, (validate_inner_fold hv).2] at hroot

/-- With the first branch at the head, the next block of the second one is not accepted. -/
theorem alpha_first_rejects {n : Logged} {S : String → List Int64 × ModelState}
    (h : Toy.Knows n S Toy.a₃ [Toy.b₃, Toy.b₂, Toy.b₁, Toy.a₃, Toy.a₂, Toy.a₁, Toy.genesis] ∅) :
    n.step (.add_block (Toy.b₃.block Toy.beta)) = n := by
  have hold := h.holds Toy.b₃ (by simp)
  have hne : Toy.b₃.hash ≠ n.tree.head := by
    rw [h.head]
    exact (Toy.fresh_of_sublist (Toy.all_suffix [Toy.b₄] _ rfl) Toy.a₃ (by simp)).symm
  rcases h.coherent.add_block_cases (Toy.b₃.block Toy.beta) with ⟨e, he⟩ | ⟨-, he⟩ | ⟨p, staged, ha, -⟩
  · simp [Logged.step, BlockTree.step, he]
  · simp [Logged.step, BlockTree.step, he]
  · have hroot := empty_state_root rfl ha.valid
    obtain ⟨up, down, hf⟩ := fork_walk_known h.coherent.shape hold.known
    have hleaves : n.tree.leaves_at S Toy.b₃.hash = stale_tree.page_leaves := by
      simp only [leaves_at, if_neg hne, hf, rewound_leaves, h.untouched, h.leaves, hold.state, stale_tree]
    have hpm : p.model = Toy.b₃.parent.model := by
      have := (parent_entries_spec ha.entries).1.symm.trans (h.coherent.model _ ha.parent_known)
      rw [Toy.Spot.block_prev, hold.state] at this
      exact Option.some.inj this
    rw [Toy.Spot.block_prev, hpm, show (n.tree.moved_to S Toy.b₃.hash).params = _ from h.coherent.same_params,
      state_root_with_congr (t := stale_tree) (congrArg Prod.fst hold.state) hleaves] at hroot
    exact absurd hroot stale_root

theorem arrival_order_matters :
    alpha_first.Perm beta_first ∧ (alpha_first.map Block.hash).Nodup ∧
      ParentsFirst Toy.root.genesis_hash alpha_first ∧ ParentsFirst Toy.root.genesis_hash beta_first ∧
      WorkBelowMax (Toy.root.run (deliver alpha_first)) ∧
      ¬ SameChoice (Toy.root.run (deliver alpha_first)) (Toy.root.run (deliver beta_first)) := by
  obtain ⟨S, h⟩ := Toy.knows_both
  obtain ⟨S', h'⟩ := Toy.knows_b₄
  set n := (Logged.new [5] none Toy.grow_params).run (deliver (Toy.alpha_branch ++ Toy.beta_branch)) with hn
  set n' := (Logged.new [5] none Toy.grow_params).run (deliver (Toy.beta_branch ++ [Toy.b₃.block Toy.beta])) with hn'
  have hrun : Toy.root.run (deliver alpha_first) = n.tree := by
    have : (Logged.new [5] none Toy.grow_params).run (deliver alpha_first) =
        n.step (.add_block (Toy.b₃.block Toy.beta)) := by
      rw [alpha_first, ← List.append_assoc, deliver_append, Logged.run, List.foldl_append]
      rfl
    rw [← alpha_first_rejects h, ← this, Toy.root_run_tree]
  have hrun' : Toy.root.run (deliver beta_first) = (n'.run (deliver Toy.alpha_branch)).tree := by
    have : (Logged.new [5] none Toy.grow_params).run (deliver beta_first) = n'.run (deliver Toy.alpha_branch) := by
      rw [beta_first, deliver_append, Logged.run, List.foldl_append]
      rfl
    rw [← this, Toy.root_run_tree]
  have hsmall : ∀ s ∈ [Toy.b₃, Toy.b₂, Toy.b₁, Toy.a₃, Toy.a₂, Toy.a₁, Toy.genesis], s.parent.work < u64_max := by
    decide
  refine ⟨List.perm_append_comm, alpha_first_nodup, alpha_first_parents.1, alpha_first_parents.2, ?_, fun hsame => ?_⟩
  · rw [hrun]
    exact h.workBelowMax hsmall
  · have hk := h'.coherent.known_run (deliver Toy.alpha_branch) (h'.holds Toy.b₄ (by simp)).known
    rw [← hrun', hsame.blocks, hrun] at hk
    obtain ⟨s, hs, he⟩ := h.only _ (.inl hk)
    exact Toy.fresh_of_sublist (Toy.all_suffix [] _ rfl) s hs he

end Sestrian
