import Sestrian.Paged.Stage
import Sestrian.Tree.Fork

/-!
# A paged node beside a full node

Both are fed the same chain. Each block carries the page leaves of the full node as its witness.
-/

open Check

namespace Sestrian

open Aggregate Pages BlockTree

section Any

variable [Crypto]

/-- The weights of the held pages, in page order. -/
def held_weights (w : List Int64) (held : List Nat) (spans : List (Nat × Nat)) (k : Nat) : List Int64 :=
  ((spans.zipIdx k).filter fun page => decide (page.2 ∈ held)).flatMap fun page => slice w page.1.1 page.1.2

structure Shadows (held : List Nat) (t f : BlockTree) : Prop where
  head : t.head = f.head
  ledger : t.ledger = f.ledger
  model : t.model = f.model
  cum_work : t.cum_work = f.cum_work
  page_leaves : t.page_leaves = f.page_leaves
  canon : ∃ m, f.model[f.head]? = some m ∧ t.canon = held_weights f.canon held m.spans 0

/-- The full node accepts each block, which extends the last and carries its leaves. -/
def Follows : BlockTree → List Block → Prop
  | _, [] => True
  | f, b :: bs =>
    b.header.prev_hash = f.head ∧ (∃ r, (f.add_block b).1 = .ok r) ∧
      b.witness_leaves = (f.add_block b).2.page_leaves ∧ Follows (f.add_block b).2 bs

/-- The paged node accepts each block and stays in step. -/
def Simulates (held : List Nat) : BlockTree → BlockTree → List Block → Prop
  | _, _, [] => True
  | t, f, b :: bs =>
    (∃ r, (t.add_block b).1 = .ok r) ∧ Shadows held (t.add_block b).2 (f.add_block b).2 ∧
      Simulates held (t.add_block b).2 (f.add_block b).2 bs

/-- A new block on the head that appends a page. -/
def GrowsWith (f : BlockTree) (b : Block) : Prop :=
  b.hash ∉ f.blocks ∧ ∃ m, f.model[f.head]? = some m ∧ (fold_block b m f.params).2 ≠ []

def NeverGrows : BlockTree → List Block → Prop
  | _, [] => True
  | f, b :: bs => ¬ GrowsWith f b ∧ NeverGrows (f.add_block b).2 bs

omit [Crypto] in
theorem length_spans_from (a : Nat) (ps : List (List Int64)) : (spans_from a ps).length = ps.length := by
  induction ps generalizing a with
  | nil => rfl
  | cons p ps ih => simp [spans_from, ih]

/-! ## What stays the same -/

structure Mirror (held : List Nat) (t f : BlockTree) (m : ModelState) : Prop where
  head : t.head = f.head
  blocks : t.blocks = f.blocks
  ledger : t.ledger = f.ledger
  model : t.model = f.model
  cum_work : t.cum_work = f.cum_work
  page_leaves : t.page_leaves = f.page_leaves
  params : t.params = f.params
  contributor : t.data_contributor = f.data_contributor
  genesis_hash : t.genesis_hash = f.genesis_hash
  unconvicted : ∀ h, h ∉ t.convicted ∧ h ∉ f.convicted
  unpruned : t.prune_depth = none ∧ f.prune_depth = none
  paged : t.held.isSome
  full : f.held = none
  head_model : f.model[f.head]? = some m
  stands : StandsAt t f.canon m
  weights : ∀ w, compact w t.page_base m.spans = held_weights w held m.spans 0

variable {held : List Nat} {t f : BlockTree} {m : ModelState} {b : Block}

theorem Mirror.shadows (h : Mirror held t f m) : Shadows held t f where
  head := h.head
  ledger := h.ledger
  model := h.model
  cum_work := h.cum_work
  page_leaves := h.page_leaves
  canon := ⟨m, h.head_model, by rw [h.stands.canon, h.weights]⟩

omit [Crypto] in
theorem prune_deep_none {t : BlockTree} (h : t.prune_depth = none) : t.prune_deep = t := by
  unfold prune_deep
  rw [h]

omit [Crypto] in
theorem parent_entries_congr (hb : t.blocks = f.blocks) (hl : t.ledger = f.ledger) (hm : t.model = f.model)
    (hc : t.cum_work = f.cum_work) (hg : t.genesis_hash = f.genesis_hash) (h : String) :
    t.parent_entries h = f.parent_entries h := by
  have hparent : t.parent = f.parent := by
    funext x
    unfold BlockTree.parent
    rw [hb]
  unfold parent_entries recent_proposers
  rw [hb, hl, hm, hc, hg, hparent]

/-- A full node's acceptance, taken apart. -/
theorem Mirror.full_accepts (h : Mirror held t f m) (hprev : b.header.prev_hash = f.head) (hnew : b.hash ∉ f.blocks)
    {r : Bool} (hr : (f.add_block b).1 = .ok r) :
    ∃ p staged, f.parent_entries f.head = .ok p ∧ p.model = m ∧ f.validate_at_base b p = .ok staged ∧
      f.add_block b = (.ok true, f.commit_staged b.hash b.header staged (work_with p b)) := by
  have hstep : f.add_block b = f.connect_extend b := by
    simp [add_block, hnew, (h.unconvicted _).2, h.full, hprev]
  rw [hstep] at hr ⊢
  unfold connect_extend at hr ⊢
  cases hp : f.parent_entries f.head with
  | error e => simp [hp] at hr
  | ok p =>
    cases hv : f.validate_at_base b p with
    | error e => simp [hp, hv] at hr
    | ok staged =>
      have hm := (parent_entries_spec hp).1
      exact ⟨p, staged, rfl, Option.some.inj (hm.symm.trans h.head_model), hv, by simp only [hv]; rfl⟩

theorem spans_ungrown {m : ModelState} {params : GenesisParams} (h : (fold_block b m params).2 = []) :
    (fold_block b m params).1.spans = m.spans := by
  rw [spans_fold_block, h]
  exact List.append_nil _

theorem commit_staged_unpruned (h : f.prune_depth = none) (staged : Staged) (work : UInt64) :
    f.commit_staged b.hash b.header staged work = { f.record b.hash b.header staged work with
      canon := apply_redo f.canon staged.agg.toList ++ staged.init_pages.flatten
      page_leaves := staged.new_leaves
      head := b.hash } :=
  prune_deep_none h

/-- The aggregate of a block that the full node accepts. -/
theorem aggregateOf_staged {p : Parent} {staged : Staged} (hv : f.validate_at_base b p = .ok staged) :
    AggregateOf b p.model.spans staged.agg := by
  simp only [validate_at_base, bind_eq_ok, require_eq_ok, pure_eq_ok] at hv
  obtain ⟨tx_coords, hcoords, v, -, -, -, rfl⟩ := hv
  refine ⟨tx_coords.map fun cs => (f.canon.length, cs), ?_, ?_⟩
  · refine (mapM_eq_ok _ _ _).mpr (List.forall₂_map_right_iff.mpr ?_)
    exact ((mapM_eq_ok _ _ _).mp hcoords).imp fun tx cs hc => check_sparse_tx_coords hc
  · simp only [List.map_map]
    congr 1
    exact (List.map_id _).symm

theorem validate_at_base_parts {p : Parent} {staged : Staged} (hv : f.validate_at_base b p = .ok staged) :
    ∃ v, validate_inner b none p.height p.ledger f.data_contributor p.jurors p.model f.params = .ok v ∧
      staged.led = v.ledger ∧ staged.post_model = v.model ∧ staged.init_pages = init_pages f.params v.activations ∧
      hex_encode (merkle.root_from_hashes staged.new_leaves).val = b.header.state_root := by
  simp only [validate_at_base, bind_eq_ok, require_eq_ok, pure_eq_ok] at hv
  obtain ⟨tx_coords, -, v, hin, -, hroot, rfl⟩ := hv
  exact ⟨v, hin, rfl, rfl, rfl, hroot⟩

omit [Crypto] in
theorem AggregateOf.unique {spans : List (Nat × Nat)} {agg agg' : Coords} (h : AggregateOf b spans agg)
    (h' : AggregateOf b spans agg') : agg = agg' := by
  obtain ⟨bodies, hb, rfl⟩ := h
  obtain ⟨bodies', hb', rfl⟩ := h'
  rw [Except.ok.inj (hb.symm.trans hb')]

/-- The tree after a block that the paged node takes. -/
def BlockTree.paged_after (t : BlockTree) (b : Block) (p : Parent)
    (r : Validated × Coords × List Hash × List (UInt32 × Int64) × List Int64) : BlockTree :=
  { t with
    canon := r.2.2.2.2
    page_leaves := r.2.2.1
    undo := t.undo.insert b.hash (r.2.2.2.1, [])
    redo := t.redo.insert b.hash r.2.1.toList
    blocks := t.blocks.insert b.hash b.header
    ledger := t.ledger.insert b.hash r.1.ledger
    model := t.model.insert b.hash r.1.model
    cum_work := t.cum_work.insert b.hash (work_with p b)
    head := b.hash }

theorem connect_extend_paged_ok {p : Parent} {r : Validated × Coords × List Hash × List (UInt32 × Int64) × List Int64}
    (hp : t.parent_entries t.head = .ok p) (hr : t.stage_paged b p = .ok r) :
    t.connect_extend_paged b = (.ok true, (t.paged_after b p r).prune_deep) := by
  unfold connect_extend_paged
  rw [hp]
  simp only [bind, Except.bind, hr]
  rfl

theorem add_block_paged (hheld : t.held.isSome) (hnew : b.hash ∉ t.blocks) (hconv : ∀ h, h ∉ t.convicted)
    (hprev : b.header.prev_hash = t.head) : t.add_block b = t.connect_extend_paged b := by
  simp [add_block, hnew, hconv, hheld, hprev]

/-- What the full node computes for a block that does not grow the model: the page table stays, and so do its leaves. -/
structure Steady (f : BlockTree) (p : Parent) (b : Block) (v : Validated) (staged : Staged) : Prop where
  inner : validate_inner b none p.height p.ledger f.data_contributor p.jurors p.model f.params = .ok v
  led : staged.led = v.ledger
  post : staged.post_model = v.model
  idle : init_pages f.params v.activations = []
  init : staged.init_pages = []
  spans : staged.post_model.spans = p.model.spans
  describes : Describes staged.post_model f.canon.length
  leaves : staged.new_leaves = leaves_for (apply_redo f.canon staged.agg.toList) p.model
  root : hex_encode (merkle.root_from_hashes staged.new_leaves).val = b.header.state_root

theorem steady_of_valid {p : Parent} {staged : Staged} (hstands : Describes p.model f.canon.length)
    (hpage : f.page_leaves = leaves_for f.canon p.model) (hdim : f.canon.length < 2 ^ 32)
    (hv : f.validate_at_base b p = .ok staged) (hnone : (fold_block b p.model f.params).2 = []) :
    ∃ v, Steady f p b v staged := by
  obtain ⟨v, hin, hled, hpost, hips, hroot⟩ := validate_at_base_parts hv
  obtain ⟨hmodel, hact⟩ := validate_inner_fold hin
  have hidle : init_pages f.params v.activations = [] := by
    rw [hact, hnone]
    rfl
  have hinit : staged.init_pages = [] := hips.trans hidle
  have hspans : staged.post_model.spans = p.model.spans := by rw [hpost, hmodel, spans_ungrown hnone]
  -- the leaves of the full node are those of the old table, over the new weights
  have hleaves := staged_leaves hv hstands hpage fun _ => hdim
  rw [hinit, List.flatten_nil, List.append_nil, leaves_for_eq, hspans, ← leaves_for_eq] at hleaves
  have hdescribes := hstands.fold b f.params
  rw [hnone] at hdescribes
  exact ⟨v, hin, hled, hpost, hidle, hinit, hspans, by simpa [hpost, hmodel, init_pages] using hdescribes, hleaves, hroot⟩

/-- The leaves that the paged node computes. -/
theorem Steady.paged_leaves {p : Parent} {v : Validated} {staged : Staged} (hs : Steady f p b v staged)
    (hparams : t.params = f.params) : (paged_staged t f.canon p.model v staged.agg).2.2.1 = staged.new_leaves := by
  rw [paged_staged, hs.leaves, hparams, hs.idle]
  exact List.append_nil _

/-- The paged node takes the block with the leaves of the full node as its witness. -/
theorem Mirror.stages {p : Parent} {v : Validated} {staged : Staged} (h : Mirror held t f p.model)
    (hs : Steady f p b v staged) (hdim : f.canon.length < 2 ^ 32) (hv : f.validate_at_base b p = .ok staged)
    (hwit : b.witness_leaves = staged.new_leaves) :
    t.stage_paged b p = .ok (paged_staged t f.canon p.model v staged.agg) := by
  have hagg := aggregateOf_staged hv
  have hright : ∀ agg, AggregateOf b p.model.spans agg →
      WitnessRight t p.model.spans agg b.witness_leaves (apply_redo f.canon agg.toList) := by
    intro agg hagg' pid s _ hs' _
    rw [hagg'.unique hagg, hwit, hs.leaves, leaves_for_eq, List.getElem?_map, hs']
    rfl
  refine (stage_paged_iff h.stands (fun _ => hdim) hright _).mpr ⟨v, staged.agg, ?_, ?_, hagg, ?_, rfl⟩
  · rw [hwit, hs.leaves, leaves_for, List.length_map]
  · rw [h.contributor, h.params]
    exact hs.inner
  · rw [hs.paged_leaves h.params]
    exact hs.root

/-- The two trees after the block. -/
theorem Mirror.commits {p : Parent} {v : Validated} {staged : Staged} (h : Mirror held t f p.model)
    (hs : Steady f p b v staged) :
    Mirror held (t.paged_after b p (paged_staged t f.canon p.model v staged.agg))
      { f.record b.hash b.header staged (work_with p b) with
        canon := apply_redo f.canon staged.agg.toList ++ staged.init_pages.flatten
        page_leaves := staged.new_leaves
        head := b.hash } staged.post_model := by
  have hsame : apply_redo f.canon staged.agg.toList ++ staged.init_pages.flatten =
      apply_redo f.canon staged.agg.toList := by
    rw [hs.init]
    exact List.append_nil _
  constructor
  case head => rfl
  case blocks => exact congrArg (·.insert b.hash b.header) h.blocks
  case ledger =>
    change t.ledger.insert b.hash v.ledger = f.ledger.insert b.hash staged.led
    rw [hs.led, h.ledger]
  case model =>
    change t.model.insert b.hash v.model = f.model.insert b.hash staged.post_model
    rw [hs.post, h.model]
  case cum_work => exact congrArg (·.insert b.hash (work_with p b)) h.cum_work
  case page_leaves => exact hs.paged_leaves h.params
  case params => exact h.params
  case contributor => exact h.contributor
  case genesis_hash => exact h.genesis_hash
  case unconvicted => exact h.unconvicted
  case unpruned => exact h.unpruned
  case paged => exact h.paged
  case full => exact h.full
  case head_model => exact Std.ExtTreeMap.getElem?_insert_self
  case stands =>
    refine ⟨?_, ?_, ?_, ?_⟩
    · rw [hsame, length_apply_redo]
      exact hs.describes
    · exact hs.spans ▸ h.stands.based
    · rw [hs.spans, hsame]
      rfl
    · rw [hsame, leaves_for_eq, hs.spans, ← leaves_for_eq, ← hs.leaves]
      exact hs.paged_leaves h.params
  case weights =>
    rw [hs.spans]
    exact h.weights

/-- One block that does not grow the model. -/
theorem Mirror.step (h : Mirror held t f m) (hprev : b.header.prev_hash = f.head) (hdim : f.canon.length < 2 ^ 32)
    (hr : ∃ r, (f.add_block b).1 = .ok r) (hwit : b.witness_leaves = (f.add_block b).2.page_leaves)
    (hgrow : ¬ GrowsWith f b) :
    (∃ r, (t.add_block b).1 = .ok r) ∧ (∃ m', Mirror held (t.add_block b).2 (f.add_block b).2 m') ∧
      (f.add_block b).2.canon.length = f.canon.length ∧ (f.add_block b).2.params = f.params := by
  obtain ⟨r, hr⟩ := hr
  by_cases hnew : b.hash ∈ f.blocks
  · have hf : f.add_block b = (.ok false, f) := by simp [add_block, hnew]
    have ht : t.add_block b = (.ok false, t) := by simp [add_block, h.blocks, hnew]
    rw [hf, ht]
    exact ⟨⟨false, rfl⟩, ⟨m, h⟩, rfl, rfl⟩
  · obtain ⟨p, staged, hp, rfl, hv, hf⟩ := h.full_accepts hprev hnew hr
    have hnone : (fold_block b p.model f.params).2 = [] := by
      by_contra hne
      exact hgrow ⟨hnew, p.model, h.head_model, hne⟩
    obtain ⟨v, hs⟩ := steady_of_valid h.stands.describes (h.page_leaves ▸ h.stands.leaves) hdim hv hnone
    rw [hf, commit_staged_unpruned h.unpruned.2] at hwit ⊢
    replace hwit : b.witness_leaves = staged.new_leaves := hwit
    have hstage := h.stages hs hdim hv hwit
    have hent := parent_entries_congr h.blocks h.ledger h.model h.cum_work h.genesis_hash t.head
    rw [h.head] at hent
    have ht := add_block_paged h.paged (h.blocks ▸ hnew) (fun x => (h.unconvicted x).1) (hprev.trans h.head.symm)
    have hunpruned : (t.paged_after b p (paged_staged t f.canon p.model v staged.agg)).prune_depth = none := h.unpruned.1
    rw [connect_extend_paged_ok (h.head ▸ hent.trans hp) hstage, prune_deep_none hunpruned] at ht
    rw [ht]
    refine ⟨⟨true, rfl⟩, ⟨staged.post_model, h.commits hs⟩, ?_, rfl⟩
    rw [hs.init, List.flatten_nil, List.append_nil, length_apply_redo]

/-- A block that grows the model has one leaf more in its witness than the node asks for. -/
theorem Mirror.rejects_growth (h : Mirror held t f m) (hprev : b.header.prev_hash = f.head)
    (hdim : f.canon.length < 2 ^ 32) (hr : ∃ r, (f.add_block b).1 = .ok r)
    (hwit : b.witness_leaves = (f.add_block b).2.page_leaves) (hgrow : GrowsWith f b) :
    ¬ ∃ r, (t.add_block b).1 = .ok r := by
  obtain ⟨r, hr⟩ := hr
  obtain ⟨hnew, m', hm', hne⟩ := hgrow
  obtain ⟨p, staged, hp, rfl, hv, hf⟩ := h.full_accepts hprev hnew hr
  obtain rfl : m' = p.model := Option.some.inj (hm'.symm.trans h.head_model)
  obtain ⟨v, hin, -, hpost, -, -⟩ := validate_at_base_parts hv
  obtain ⟨hmodel, -⟩ := validate_inner_fold hin
  have hleaves := staged_leaves hv h.stands.describes (h.page_leaves ▸ h.stands.leaves) fun _ => hdim
  rw [hf, commit_staged_unpruned h.unpruned.2] at hwit
  replace hwit : b.witness_leaves = staged.new_leaves := hwit
  have hlen : b.witness_leaves.length ≠ p.model.pages.length := by
    have hspans := congrArg List.length (spans_fold_block b p.model f.params)
    rw [spans_eq, spans_eq, List.length_append, List.length_map, List.length_map, ← hmodel, ← hpost] at hspans
    rw [hwit, hleaves, leaves_for, List.length_map, hspans]
    have : 0 < (spans_from (table_end p.model.pages) (init_pages f.params (fold_block b p.model f.params).2)).length := by
      rw [length_spans_from, init_pages, List.length_map]
      exact List.length_pos_iff.mpr hne
    omega
  have hent := parent_entries_congr h.blocks h.ledger h.model h.cum_work h.genesis_hash t.head
  rw [add_block_paged h.paged (h.blocks ▸ hnew) (fun x => (h.unconvicted x).1) (hprev.trans h.head.symm)]
  rintro ⟨r', hr'⟩
  unfold connect_extend_paged at hr'
  have hstage : ∃ e, t.stage_paged b p = .error e := by
    unfold stage_paged
    simp [require, hlen, bind, Except.bind]
  obtain ⟨e, he⟩ := hstage
  rw [hent, h.head, hp] at hr'
  simp [bind, Except.bind, he] at hr'

/-! ## The genesis of the two nodes -/

omit [Crypto] in
theorem hold_pages_from (w : List Int64) (held : List Nat) (pages : List Page) (k : Nat)
    (acc : List Int64 × List (Option Nat)) (hstop : ∀ p ∈ pages, p.stop ≤ w.length) :
    ∃ bases, (pages.zipIdx k).foldl (hold_page w held) acc =
        (acc.1 ++ compact w bases (pages.map span), acc.2 ++ bases) ∧
      Based acc.1.length bases (pages.map span) ∧
      (∀ w', compact w' bases (pages.map span) = held_weights w' held (pages.map span) k) ∧
      ∀ i, i < pages.length → (bases[i]? = some none ↔ k + i ∉ held) := by
  induction pages generalizing k acc with
  | nil => exact ⟨[], by simp [compact], trivial, fun _ => rfl, by simp⟩
  | cons p pages ih =>
    have hstop' : ∀ q ∈ pages, q.stop ≤ w.length := fun q hq => hstop q (List.mem_cons_of_mem _ hq)
    have hlen : (slice w p.start p.stop).length = p.stop - p.start := length_slice _ _ _ (hstop p List.mem_cons_self)
    rw [List.zipIdx_cons, List.foldl_cons]
    by_cases hheld : k ∈ held
    · have hstep : hold_page w held acc (p, k) =
          (acc.1 ++ slice w p.start p.stop, acc.2 ++ [some acc.1.length]) := if_pos hheld
      obtain ⟨bases, hf, hbased, hw, hun⟩ := ih (k + 1) (hold_page w held acc (p, k)) hstop'
      rw [hstep] at hf hbased
      refine ⟨some acc.1.length :: bases, ?_, ⟨rfl, ?_⟩, ?_, ?_⟩
      · rw [hstep, hf]
        simp [compact, span]
      · simpa [List.length_append, hlen, span] using hbased
      · intro w'
        simp only [List.map_cons, compact, hw w', held_weights, List.zipIdx_cons]
        rw [List.filter_cons_of_pos (by simpa using hheld)]
        rfl
      · rintro (_ | i) hi
        · simp [hheld]
        · rw [List.getElem?_cons_succ, hun i (by simpa using hi)]
          rw [show k + (i + 1) = k + 1 + i by omega]
    · have hstep : hold_page w held acc (p, k) = (acc.1, acc.2 ++ [none]) := if_neg hheld
      obtain ⟨bases, hf, hbased, hw, hun⟩ := ih (k + 1) (hold_page w held acc (p, k)) hstop'
      rw [hstep] at hf hbased
      refine ⟨none :: bases, ?_, hbased, ?_, ?_⟩
      · rw [hstep, hf]
        simp [compact]
      · intro w'
        simp only [List.map_cons, compact, hw w', held_weights, List.zipIdx_cons]
        rw [List.filter_cons_of_neg (by simpa using hheld)]
      · rintro (_ | i) hi
        · simp [hheld]
        · rw [List.getElem?_cons_succ, hun i (by simpa using hi)]
          rw [show k + (i + 1) = k + 1 + i by omega]

/-- The paged node at genesis. -/
theorem new_paged_eq (w : List Int64) (held : List Nat) (dc : Option String) (params : GenesisParams)
    (hw : w.length = (ModelState.genesis params.spec).dim) :
    ∃ bases, BlockTree.new_paged w held dc params = { BlockTree.new w dc params with
        canon := compact w bases (ModelState.genesis params.spec).spans
        genesis_pin := none
        held := some (0 :: held)
        page_base := bases } ∧
      Based 0 bases (ModelState.genesis params.spec).spans ∧
      (∀ w', compact w' bases (ModelState.genesis params.spec).spans =
        held_weights w' (0 :: held) (ModelState.genesis params.spec).spans 0) ∧
      ∀ i, i < (ModelState.genesis params.spec).pages.length → (bases[i]? = some none ↔ i ∉ 0 :: held) := by
  have hd := describes_genesis params.spec
  have hstop : ∀ p ∈ (ModelState.genesis params.spec).pages, p.stop ≤ w.length := by
    intro p hp
    rw [hw]
    exact hd.tiled.stop_le (s := span p) (List.mem_map_of_mem hp)
  obtain ⟨bases, hf, hbased, hweights, hun⟩ := hold_pages_from w (0 :: held) _ 0 ([], []) hstop
  refine ⟨bases, ?_, hbased, hweights, fun i hi => by rw [hun i hi, Nat.zero_add]⟩
  have hpages : hold_pages w (0 :: held) (ModelState.genesis params.spec).pages =
      (compact w bases (ModelState.genesis params.spec).spans, bases) := hf
  unfold BlockTree.new_paged
  simp only [hpages]

theorem mirror_new (w : List Int64) (held : List Nat) (dc : Option String) (params : GenesisParams)
    (hw : w.length = (ModelState.genesis params.spec).dim) :
    Mirror (0 :: held) (BlockTree.new_paged w held dc params) (BlockTree.new w dc params)
      (ModelState.genesis params.spec) := by
  obtain ⟨bases, heq, hbased, hweights, -⟩ := new_paged_eq w held dc params hw
  rw [heq]
  constructor
  case unconvicted => exact fun h => ⟨Std.ExtTreeSet.not_mem_empty, Std.ExtTreeSet.not_mem_empty⟩
  case unpruned => exact ⟨rfl, rfl⟩
  case head_model => exact Std.ExtTreeMap.getElem?_insert_self
  case stands => exact ⟨hw ▸ describes_genesis params.spec, hbased, rfl, rfl⟩
  case weights => exact hweights
  all_goals rfl

/-- In step for as long as nothing grows, and no longer. -/
theorem Mirror.simulates_iff (h : Mirror held t f m) (hdim : f.canon.length < 2 ^ 32) (bs : List Block)
    (hbs : Follows f bs) : Simulates held t f bs ↔ NeverGrows f bs := by
  induction bs generalizing t f m with
  | nil => exact Iff.rfl
  | cons b bs ih =>
    obtain ⟨hprev, hr, hwit, hrest⟩ := hbs
    by_cases hgrow : GrowsWith f b
    · have := h.rejects_growth hprev hdim hr hwit hgrow
      constructor
      · rintro ⟨hok, -⟩
        exact absurd hok this
      · rintro ⟨hnot, -⟩
        exact absurd hgrow hnot
    · obtain ⟨hok, ⟨m', hm'⟩, hlen, -⟩ := h.step hprev hdim hr hwit hgrow
      have := ih hm' (hlen ▸ hdim) hrest
      constructor
      · rintro ⟨-, -, hs⟩
        exact ⟨hgrow, this.mp hs⟩
      · rintro ⟨-, hn⟩
        exact ⟨hok, hm'.shadows, this.mpr hn⟩

theorem paged_simulates_iff (genesis_w : List Int64) (held : List Nat) (dc : Option String) (params : GenesisParams)
    (hw : genesis_w.length = (ModelState.genesis params.spec).dim) (hdim : genesis_w.length < 2 ^ 32)
    (bs : List Block) (hbs : Follows (BlockTree.new genesis_w dc params) bs) :
    Simulates (0 :: held) (BlockTree.new_paged genesis_w held dc params) (BlockTree.new genesis_w dc params) bs ↔
      NeverGrows (BlockTree.new genesis_w dc params) bs :=
  (mirror_new genesis_w held dc params hw).simulates_iff hdim bs hbs

end Any

open scoped Toy

namespace Toy

variable {n : Logged} {S : String → List Int64 × ModelState} {hd u : Spot} {ss : List Spot}

/-- The block with the leaves that the full node has after it. -/
def Spot.witnessed (s : Spot) (pk : ByteArr 32) (next : Spot) : Block :=
  { s.block pk with witness_leaves := leaves_for next.weights next.parent.model }

theorem add_block_witness {f : BlockTree} (hf : f.held = none) (b : Block) (leaves : List Hash) :
    f.add_block { b with witness_leaves := leaves } = f.add_block b := by
  unfold add_block
  rw [hf]
  rfl

/-- A block on the head: the full node follows, and the block grows the model when its fold does. -/
theorem Knows.follows (h : Knows n S hd ss ∅) (pk : ByteArr 32) (hnext : hd.next pk u.hash = u)
    (hx : (hd.block pk).hash = u.hash) (hfresh : ∀ s ∈ ss, s.hash ≠ u.hash) (hw : hd.parent.work.toNat < 1000) :
    ∃ n', (∃ S', Knows n' S' u (u :: ss) ∅) ∧ ∀ bs,
      (Follows n'.tree bs → Follows n.tree (hd.witnessed pk u :: bs)) ∧
      (NeverGrows n.tree (hd.witnessed pk u :: bs) ↔
        (fold_block (hd.block pk) hd.parent.model grow_params).2 = [] ∧ NeverGrows n'.tree bs) := by
  have hempty : u.hash ∉ (∅ : StrSet) ∧ hd.hash ∉ (∅ : StrSet) :=
    ⟨Std.ExtTreeSet.not_mem_empty, Std.ExtTreeSet.not_mem_empty⟩
  obtain ⟨S', hk⟩ := h.extend h.head_mem (shares_self hd) pk hnext hx hfresh hempty hw (pick_head hd u)
  refine ⟨n.step (.add_block (hd.block pk)), ⟨S', hk⟩, fun bs => ?_⟩
  obtain ⟨p, ha, -⟩ := h.accepts h.head_mem (shares_self hd) pk hx hfresh hempty
  have hadd := h.coherent.add_block_accepts h.unpruned ha
  have hsame := add_block_witness h.coherent.shape.full (hd.block pk) (leaves_for u.weights u.parent.model)
  have htree : (n.tree.add_block (hd.witnessed pk u)).2 = (n.step (.add_block (hd.block pk))).tree :=
    congrArg Prod.snd hsame
  have hmodel : n.tree.model[n.tree.head]? = some hd.parent.model := by
    have hold := h.holds hd h.head_mem
    rw [h.head, h.coherent.model _ hold.known, hold.state]
  constructor
  · intro hbs
    refine ⟨h.head.symm, ⟨_, (congrArg Prod.fst hsame).trans (congrArg Prod.fst hadd)⟩, ?_, ?_⟩
    · rw [htree, hk.leaves]
      rfl
    · rw [htree]
      exact hbs
  · rw [NeverGrows, htree]
    refine and_congr_left fun _ => ?_
    have hfold : fold_block (hd.witnessed pk u) hd.parent.model n.tree.params =
        fold_block (hd.block pk) hd.parent.model grow_params := by rw [h.coherent.same_params]; rfl
    constructor
    · intro hno
      by_contra hne
      exact hno ⟨ha.fresh, hd.parent.model, hmodel, hfold ▸ hne⟩
    · rintro hnil ⟨-, m, hm, hne⟩
      obtain rfl := Option.some.inj (hm.symm.trans hmodel)
      exact hne (hfold ▸ hnil)

/-- The third block appends a page. -/
def grown_chain : List Block :=
  [genesis.witnessed alpha a₁, a₁.witnessed alpha a₂, a₂.witnessed alpha a₃]

theorem third_grows : (fold_block (genesis.block alpha) genesis.parent.model grow_params).2 = [] ∧
    (fold_block (a₂.block alpha) a₂.parent.model grow_params).2 ≠ [] := by
  decide +kernel

theorem follows_grown_chain : Follows root grown_chain ∧ ¬ NeverGrows root grown_chain := by
  obtain ⟨n₁, ⟨S₁, h₁⟩, hf₁⟩ := knows_root.follows alpha (u := a₁) rfl hash_a₁
    (fresh_of_sublist (all_suffix [b₄, b₃, b₂, b₁, a₃, a₂] _ rfl)) (by decide)
  obtain ⟨n₂, ⟨S₂, h₂⟩, hf₂⟩ := h₁.follows alpha (u := a₂) rfl hash_a₂
    (fresh_of_sublist (all_suffix [b₄, b₃, b₂, b₁, a₃] _ rfl)) (by decide)
  obtain ⟨n₃, -, hf₃⟩ := h₂.follows alpha (u := a₃) rfl hash_a₃
    (fresh_of_sublist (all_suffix [b₄, b₃, b₂, b₁] _ rfl)) (by decide)
  refine ⟨(hf₁ _).1 ((hf₂ _).1 ((hf₃ []).1 trivial)), fun h => ?_⟩
  exact third_grows.2 ((hf₃ []).2.mp ((hf₂ _).2.mp ((hf₁ _).2.mp h).2).2).1

theorem adding_fresh : adding_block.hash ≠ owned.head := by decide +kernel

theorem adding_enters : (owned.add_block adding_block).1 = .ok true := by
  have hnew : adding_block.hash ∉ owned.blocks := by
    intro h
    rw [show owned.blocks = (∅ : Dict Header).insert owned.head (genesis_header [5] params) from rfl, mem_insert_iff] at h
    exact h.elim adding_fresh Std.ExtTreeMap.not_mem_empty
  have hnone : ∀ x, x ∉ owned.convicted := fun _ => Std.ExtTreeSet.not_mem_empty
  have hstep : owned.add_block adding_block = owned.connect_extend adding_block := by
    simp [add_block, hnew, hnone, show owned.held = none from rfl, show adding_block.header.prev_hash = owned.head from rfl]
  rw [hstep, connect_extend, owned_entries]
  simp only [adding_takes]

theorem follows_witnessed {f : BlockTree} {b : Block} (hfull : f.held = none) (hprev : b.header.prev_hash = f.head)
    (hok : (f.add_block b).1 = .ok true) :
    Follows f [{ b with witness_leaves := (f.add_block b).2.page_leaves }] := by
  have hsame := add_block_witness hfull b (f.add_block b).2.page_leaves
  refine ⟨hprev, ⟨true, (congrArg Prod.fst hsame).trans hok⟩, ?_, trivial⟩
  rw [hsame]

/-- The block that adds one, with the leaves that the full node has after it. -/
def adding_witnessed : Block := { adding_block with witness_leaves := (owned.add_block adding_block).2.page_leaves }

theorem adding_follows : Follows owned [adding_witnessed] := follows_witnessed rfl rfl adding_enters

theorem adding_keeps_shape : NeverGrows owned [adding_witnessed] := by
  refine ⟨?_, trivial⟩
  rintro ⟨-, m, hm, hne⟩
  obtain rfl : owned_parent.model = m := Option.some.inj ((parent_entries_spec owned_entries).1.symm.trans hm)
  have hquiet : (fold_block adding_witnessed owned_parent.model owned.params).2 = [] := by decide +kernel
  exact hne hquiet

end Toy

/-- A block with a delta. -/
theorem paged_simulates_delta : Follows Toy.owned [Toy.adding_witnessed] ∧
    Simulates [0] (BlockTree.new_paged [5] [] (some "owner") Toy.params) Toy.owned [Toy.adding_witnessed] :=
  ⟨Toy.adding_follows,
    (paged_simulates_iff [5] [] (some "owner") Toy.params rfl (by decide) _ Toy.adding_follows).mpr Toy.adding_keeps_shape⟩

/-- The paged node stops at a block that grows the model, which the full node accepts. -/
theorem paged_stops_at_growth :
    Follows Toy.root Toy.grown_chain ∧
      ¬ Simulates [0] (BlockTree.new_paged [5] [] none Toy.grow_params) Toy.root Toy.grown_chain := by
  have h := (mirror_new [5] [] none Toy.grow_params rfl).simulates_iff (by decide) Toy.grown_chain
    Toy.follows_grown_chain.1
  exact ⟨Toy.follows_grown_chain.1, fun hs => Toy.follows_grown_chain.2 (h.mp hs)⟩

end Sestrian
