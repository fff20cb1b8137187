import Sestrian.Paged.Bodies
import Sestrian.Tree.Survivor

/-!
# Conviction on a paged node

`rewind_to` is shared with full nodes: it reads records and page spans as places of canon.
On a paged node canon is the compact vector.
-/

open Check Walk

namespace Sestrian

open Aggregate Pages BlockTree

section Any

variable [Crypto]

/-! ## Indices of a rewind -/

/-- Every `canon[i] = old` on the way up is in bounds. -/
def UndoFits (t : BlockTree) : List Int64 → List String → Prop
  | _, [] => True
  | w, h :: hs =>
    (∀ c ∈ (t.undo[h]?.getD ([], [])).1, c.1.toNat < w.length - (t.undo[h]?.getD ([], [])).2.length) ∧
      UndoFits t (t.unwind w h) hs

/-- Every `canon[i]` on the way down is in bounds. -/
def RedoFits (t : BlockTree) : List Int64 → List String → Prop
  | _, [] => True
  | w, h :: hs => (∀ c ∈ t.redo[h]?.getD [], c.1.toNat < w.length) ∧ RedoFits t (t.replay_record w h) hs

/-- A page that ends past canon is hashed again, so `canon[s..e]` is taken for every such page. -/
def RewindFits (t : BlockTree) (target : String) : Prop :=
  ∀ up down m, t.fork_walk target = .ok (up, down) → t.model[target]? = some m →
    UndoFits t t.canon up ∧ RedoFits t (up.foldl t.unwind t.canon) down.reverse ∧
      ∀ page ∈ m.pages, page.stop ≤ (down.reverse.foldl t.replay_record (up.foldl t.unwind t.canon)).length

/-- The indices of `convict`: those of its rewind, when it makes one. -/
def ConvictFits (t : BlockTree) (b : String) : Prop :=
  b ∈ t.blocks → (marked t b).is_convicted_line t.head = true → (marked t b).best_head ≠ t.head →
    RewindFits (marked t b) (marked t b).best_head

/-- The paged node accepts each block as its new head. -/
def TakesAll : BlockTree → List Block → Prop
  | _, [] => True
  | t, b :: bs => (t.add_block b).1 = .ok true ∧ TakesAll (t.add_block b).2 bs

def tip_of (t : BlockTree) (bs : List Block) : String := (bs.getLast?.map Block.hash).getD t.genesis_hash

/-- After the conviction of `b` the node has the held weights and the leaves of its new head. -/
structure Restores (genesis_w : List Int64) (held : List Nat) (params : GenesisParams) (bs : List Block)
    (t : BlockTree) (b : String) : Prop where
  in_bounds : ConvictFits t b
  state : ∃ kept, kept <+: bs ∧ (t.convict b).2.head = tip_of t kept ∧
    (t.convict b).2.canon =
      held_weights (replay genesis_w params kept).1 held (replay genesis_w params kept).2.spans 0 ∧
    (t.convict b).2.page_leaves = leaves_for (replay genesis_w params kept).1 (replay genesis_w params kept).2

/-! ## A chain and nothing else -/

structure Lined (m₀ : ModelState) (n : Nat) (t : BlockTree) (l : List String) : Prop where
  shape : t.unheld.Shape
  paged : t.held.isSome
  path : Path t.unheld.parent t.genesis_hash t.head l
  only : ∀ h ∈ t.blocks, h ∈ l
  genesis_model : t.model[t.genesis_hash]? = some m₀
  kept : t.Unpruned
  tails : ∀ (h : String) u tail, t.undo[h]? = some (u, tail) → tail = []
  length : t.canon.length = n
  unconvicted : ∀ h, h ∉ t.convicted

variable {m₀ : ModelState} {n : Nat} {t : BlockTree} {l : List String}

omit [Crypto] in
theorem commit_held_length {spans : List (Nat × Nat)} (cs : List (UInt32 × Int64))
    (acc acc' : List (UInt32 × Int64) × List Int64) (h : cs.foldlM (t.commit_held spans) acc = .ok acc') :
    acc'.2.length = acc.2.length := by
  refine foldlM_inv (fun s => s.2.length = acc.2.length) _ cs ?_ acc acc' rfl h
  intro s s' c _ hs hstep
  simp only [commit_held, bind_eq_ok, pure_eq_ok] at hstep
  obtain ⟨base, -, old, -, rfl⟩ := hstep
  rw [List.length_set, hs]

theorem Lined.step (h : Lined m₀ n t l) {b : Block} (hok : (t.add_block b).1 = .ok true) :
    Lined m₀ n (t.add_block b).2 (b.hash :: l) ∧ b.hash ∉ t.blocks ∧
      (t.add_block b).2.genesis_hash = t.genesis_hash := by
  rcases paged_add_block_cases h.paged b with ⟨e, he⟩ | ⟨-, he⟩ | ⟨p, r, hnew, hprev, hp, -, hr, he⟩
  · rw [he] at hok
    cases hok
  · rw [he] at hok
    cases hok
  · have hunpruned : (t.paged_after b p r).prune_depth = none := h.kept.no_depth
    rw [he, prune_deep_none hunpruned]
    have hother {x : String} (hx : x ∈ t.blocks) : x ≠ b.hash := fun he => hnew (he ▸ hx)
    have hg := hother h.shape.genesis_known
    have hpar (x : String) (hx : x ∈ t.blocks) :
        (t.paged_after b p r).unheld.parent x = t.unheld.parent x := by
      simp [BlockTree.parent, unheld, paged_after, (hother hx).symm]
    have hpar' : (t.paged_after b p r).unheld.parent b.hash = some t.head := by
      simp [BlockTree.parent, unheld, paged_after, hprev]
    have hpath : Path (t.paged_after b p r).unheld.parent t.genesis_hash t.head l :=
      h.path.mono fun x hx _ => hpar x (h.shape.line_known h.path x hx)
    refine ⟨⟨⟨rfl, ?_, ?_, ?_⟩, h.paged, .step hg.symm hpar' hpath, ?_, ?_, ⟨hunpruned, ?_⟩, ?_, ?_, h.unconvicted⟩,
      hnew, rfl⟩
    · exact (mem_insert_iff _ _ _ _).mpr (.inr h.shape.genesis_known)
    · exact (mem_insert_iff _ _ _ _).mpr (.inl rfl)
    · intro x hx
      rcases (mem_insert_iff _ _ _ _).mp hx with rfl | hx
      · exact ⟨_, .step hg.symm hpar' hpath⟩
      · obtain ⟨lx, hlx⟩ := h.shape.line x hx
        exact ⟨lx, hlx.mono fun y hy _ => hpar y (h.shape.line_known hlx y hy)⟩
    · intro x hx
      rcases (mem_insert_iff _ _ _ _).mp hx with rfl | hx
      · exact List.mem_cons_self
      · exact List.mem_cons_of_mem _ (h.only x hx)
    · change (t.model.insert b.hash r.1.model)[t.genesis_hash]? = some m₀
      rw [SumMap.get_insert, if_neg (show b.hash ≠ t.genesis_hash from hg.symm)]
      exact h.genesis_model
    · intro x hx hxg
      rcases (mem_insert_iff _ _ _ _).mp hx with rfl | hx
      · exact ⟨(mem_insert_iff _ _ _ _).mpr (.inl rfl), (mem_insert_iff _ _ _ _).mpr (.inl rfl)⟩
      · exact (h.kept.kept x hx hxg).imp (fun hk => (mem_insert_iff _ _ _ _).mpr (.inr hk))
          fun hk => (mem_insert_iff _ _ _ _).mpr (.inr hk)
    · intro x u tail hu
      have hu := (SumMap.get_insert t.undo _ _ _).symm.trans hu
      split at hu
      · exact (Prod.mk.inj (Option.some.inj hu)).2.symm
      · exact h.tails x u tail hu
    · simp only [stage_paged, bind_eq_ok, pure_eq_ok] at hr
      obtain ⟨-, -, v, -, bodies, -, leaves, -, -, -, ⟨undo, canon⟩, hcommit, rfl⟩ := hr
      exact (commit_held_length _ _ _ hcommit).trans h.length

/-- The hash of each accepted block. -/
theorem Lined.run (h : Lined m₀ n t l) (bs : List Block) (hbs : TakesAll t bs) :
    ∃ l', Lined m₀ n (t.run (deliver bs)) l' ∧ (t.run (deliver bs)).genesis_hash = t.genesis_hash ∧
      (∀ x ∈ l, x ∈ l') ∧ ∀ b ∈ bs, b.hash ∈ l' ∧ b.hash ≠ t.genesis_hash := by
  induction bs generalizing t l with
  | nil => exact ⟨l, h, rfl, fun _ hx => hx, by simp⟩
  | cons b bs ih =>
    obtain ⟨h', hnew, hg⟩ := h.step hbs.1
    obtain ⟨l', hl', hg', hsub, hmem⟩ := ih h' hbs.2
    have hne : b.hash ≠ t.genesis_hash := fun he => hnew (he ▸ h.shape.genesis_known)
    refine ⟨l', hl', hg'.trans hg, fun x hx => hsub x (List.mem_cons_of_mem _ hx), fun b' hb' => ?_⟩
    rcases List.mem_cons.mp hb' with rfl | hb'
    · exact ⟨hsub _ List.mem_cons_self, hne⟩
    · exact ⟨(hmem b' hb').1, hg ▸ (hmem b' hb').2⟩

omit [Crypto] in
/-- Every block of a path but its start has a child there. -/
theorem path_child {next : String → Option String} {root a x : String} {l : List String} (h : Path next root a l)
    (hx : x ∈ l) (hne : x ≠ a) : ∃ y ∈ l, next y = some x := by
  induction h with
  | root => exact absurd (List.mem_singleton.mp hx) hne
  | @step c d l' _ hn hp ih =>
    rcases List.mem_cons.mp hx with rfl | hx
    · exact absurd rfl hne
    · by_cases hd : x = d
      · exact ⟨_, List.mem_cons_self, hd ▸ hn⟩
      · obtain ⟨y, hy, he⟩ := ih hx hd
        exact ⟨y, List.mem_cons_of_mem _ hy, he⟩

omit [Crypto] in
/-- The only tip of a chain is its head, so a conviction falls back to genesis. -/
theorem Lined.best_head (h : Lined m₀ n t l) {b : String} (hb : b ∈ l) (hg : b ≠ t.genesis_hash) :
    (marked t b).is_convicted_line t.head = true ∧ (marked t b).best_head = t.genesis_hash := by
  have hs : (marked t b).unheld.Shape := { h.shape with }
  have hline : (marked t b).is_convicted_line t.head = true :=
    is_convicted_line_of_onLine (t := (marked t b).unheld) hs (b := b) Std.ExtTreeSet.mem_insert_self hg ⟨l, h.path, hb⟩
  refine ⟨hline, ?_⟩
  rcases foldl_candidate (t := marked t b) (marked t b).blocks.keys _ (.inl rfl) with hc | ⟨htip, hoff, -⟩
  · exact congrArg Prod.fst hc
  · by_contra hne
    have hk : (marked t b).best_head ∈ t.blocks := best_head_known (t := (marked t b).unheld) hs
    change (marked t b).is_tip (marked t b).best_head = true at htip
    change (marked t b).is_convicted_line (marked t b).best_head = false at hoff
    by_cases hhead : (marked t b).best_head = t.head
    · rw [hhead, hline] at hoff
      cases hoff
    · obtain ⟨y, hy, hyp⟩ := path_child h.path (h.only _ hk) hhead
      obtain ⟨hdr, hget, hprev⟩ := Option.map_eq_some_iff.mp hyp
      have hval : hdr ∈ (marked t b).blocks.values := SumMap.mem_values.mpr ⟨y, hget⟩
      have := List.all_eq_true.mp htip hdr hval
      simp only [ne_eq, decide_not, Bool.not_eq_true', decide_eq_false_iff_not] at this
      exact this hprev

omit [Crypto] in
/-- The walk back to genesis goes up the whole chain. -/
theorem Lined.walk (h : Lined m₀ n t l) (b : String) :
    ∃ up, (marked t b).fork_walk t.genesis_hash = .ok (up, []) ∧ ∀ x ∈ up, x ∈ t.undo ∧ x ∈ t.redo := by
  have hs : (marked t b).unheld.Shape := { h.shape with }
  obtain ⟨up, down, hf⟩ := fork_walk_known (t := (marked t b).unheld) hs hs.genesis_known
  obtain ⟨-, c, lc, hc, hup, hdown, -⟩ := fork_walk_spec hs hf
  have hnil : down = [] := by
    have := hdown.unique .root
    rcases List.append_eq_singleton_iff.mp this with ⟨hd, -⟩ | ⟨-, hlc⟩
    · exact hd
    · exact absurd hc.root_mem (by simp [hlc])
  subst hnil
  refine ⟨up, hf, fun x hx => ?_⟩
  have hne : x ≠ t.genesis_hash := by
    rintro rfl
    exact List.disjoint_of_nodup_append hup.nodup hx hc.root_mem
  exact h.kept.kept x (hs.line_known hup x (List.mem_append_left _ hx)) hne

omit [Crypto] in
theorem Lined.unwind_length (h : Lined m₀ n t l) (b : String) (up : List String) (w : List Int64) :
    (up.foldl (marked t b).unwind w).length = w.length := by
  induction up generalizing w with
  | nil => rfl
  | cons x up ih =>
    rw [List.foldl_cons, ih]
    unfold unwind
    rw [show (marked t b).undo = t.undo from rfl]
    cases hx : t.undo[x]? with
    | none => simp [apply_undo]
    | some ut =>
      obtain ⟨u, tail⟩ := ut
      rw [h.tails x u tail hx]
      simp only [Option.getD_some, List.length_nil, Nat.sub_zero, List.take_length, apply_undo]
      clear hx
      induction u generalizing w with
      | nil => rfl
      | cons c u ih' => rw [List.foldl_cons, ih', List.length_set]

omit [Crypto] in
/-- What a chain's conviction asks of canon: room for every genesis page. -/
theorem Lined.fits_room (h : Lined m₀ n t l) {b : String} (hb : b ∈ l) (hg : b ≠ t.genesis_hash)
    (hfits : ConvictFits t b) : ∀ page ∈ m₀.pages, page.stop ≤ n := by
  obtain ⟨hline, hbest⟩ := h.best_head hb hg
  obtain ⟨up, hf, -⟩ := h.walk b
  have hne : t.genesis_hash ≠ t.head := by
    intro he
    have := h.path
    rw [← he] at this
    rw [this.unique .root] at hb
    exact hg (List.mem_singleton.mp hb)
  have hk : b ∈ t.blocks := h.shape.line_known h.path b hb
  have := hfits hk hline (hbest ▸ hne)
  rw [hbest] at this
  obtain ⟨-, -, hroom⟩ := this up [] m₀ hf h.genesis_model
  intro page hpage
  have := hroom page hpage
  rwa [List.reverse_nil, List.foldl_nil, h.unwind_length b, show (marked t b).canon = t.canon from rfl,
    h.length] at this

omit [Crypto] in
theorem Lined.undo_fits (h : Lined m₀ n t l) (b : String) (up : List String) (w : List Int64) (hw : w.length = n)
    (hin : ∀ (x : String) u tail, t.undo[x]? = some (u, tail) → ∀ c ∈ u, c.1.toNat < n) :
    UndoFits (marked t b) w up := by
  induction up generalizing w with
  | nil => trivial
  | cons x up ih =>
    refine ⟨?_, ih _ ((h.unwind_length b [x] w).trans hw)⟩
    rw [show (marked t b).undo = t.undo from rfl]
    cases hx : t.undo[x]? with
    | none => simp
    | some ut =>
      obtain ⟨u, tail⟩ := ut
      intro c hc
      rw [h.tails x u tail hx]
      simpa [hw] using hin x u tail hx c hc

theorem Lined.convict_eq (h : Lined m₀ n t l) {b : String} (hb : b ∈ l) (hg : b ≠ t.genesis_hash) :
    ∃ canon leaves, (t.convict b).2 =
      { marked t b with canon := canon, page_leaves := leaves, head := t.genesis_hash } := by
  obtain ⟨hline, hbest⟩ := h.best_head hb hg
  obtain ⟨up, hf, hkept⟩ := h.walk b
  have hne : t.genesis_hash ≠ t.head := by
    intro he
    have := h.path
    rw [← he] at this
    rw [this.unique .root] at hb
    exact hg (List.mem_singleton.mp hb)
  have hk : t.blocks.contains b := Std.ExtTreeMap.contains_iff_mem.mpr (h.shape.line_known h.path b hb)
  have hall : ¬ ∃ x ∈ up ++ [], ¬ ((marked t b).undo.contains x ∧ (marked t b).redo.contains x) := by
    rintro ⟨x, hx, hno⟩
    rw [List.append_nil] at hx
    exact hno ((hkept x hx).imp Std.ExtTreeMap.contains_iff_mem.mpr Std.ExtTreeMap.contains_iff_mem.mpr)
  have hrewind : ∃ plan canon leaves, (marked t b).rewind_to t.genesis_hash =
      (.ok plan, { marked t b with canon := canon, page_leaves := leaves }) := by
    have hm : (marked t b).model[t.genesis_hash]? = some m₀ := h.genesis_model
    unfold rewind_to
    simp only [hf, hall, if_false, hm]
    exact ⟨_, _, _, rfl⟩
  obtain ⟨plan, canon, leaves, hr⟩ := hrewind
  refine ⟨canon, leaves, ?_⟩
  unfold BlockTree.convict
  have hbest' : ({ t with convicted := t.convicted.insert b } : BlockTree).best_head = t.genesis_hash := hbest
  have hline' : ({ t with convicted := t.convicted.insert b } : BlockTree).is_convicted_line t.head = true := hline
  have hr' : ({ t with convicted := t.convicted.insert b } : BlockTree).rewind_to t.genesis_hash = _ := hr
  simp only [hk, hline', hbest', hne, hr', Bool.not_true, Bool.false_eq_true, if_false]

/-! ## Room in the compact vector -/

omit [Crypto] in
theorem compact_le {bs : List (Option Nat)} {ss : List (Nat × Nat)} {a k : Nat} {w : List Int64} (ht : Tiled a ss k)
    (hw : k ≤ w.length) : (compact w bs ss).length + a ≤ k := by
  induction bs generalizing a ss with
  | nil =>
    have := ht.le
    cases ss <;> simpa [compact] using this
  | cons b bs ih =>
    cases ss with
    | nil =>
      have := ht.le
      cases b <;> simpa [compact] using this
    | cons s ss =>
      obtain ⟨rfl, hle, hrest⟩ := ht
      have hlen := length_slice w s.1 s.2 (hrest.le.trans hw)
      have := ih hrest
      cases b with
      | none => simp only [compact]; omega
      | some b => simp only [compact, List.length_append, hlen]; omega

omit [Crypto] in
theorem compact_lt {bs : List (Option Nat)} {ss : List (Nat × Nat)} {a k pid : Nat} {w : List Int64} {s : Nat × Nat}
    (ht : Tiled a ss k) (hw : k ≤ w.length) (hb : bs[pid]? = some none) (hs : ss[pid]? = some s) (hne : s.1 < s.2) :
    (compact w bs ss).length + a < k := by
  induction bs generalizing a ss pid with
  | nil => simp at hb
  | cons b bs ih =>
    cases ss with
    | nil => simp at hs
    | cons s' ss =>
      obtain ⟨rfl, hle, hrest⟩ := ht
      have hlen := length_slice w s'.1 s'.2 (hrest.le.trans hw)
      cases pid with
      | zero =>
        simp only [List.getElem?_cons_zero, Option.some.injEq] at hb hs
        subst hb hs
        have : (compact w bs ss).length + s'.2 ≤ k := compact_le hrest hw
        simp only [compact]
        omega
      | succ pid =>
        have := ih hrest hb hs
        cases b with
        | none => simp only [compact]; omega
        | some b => simp only [compact, List.length_append, hlen]; omega

omit [Crypto] in
theorem dim_eq_last {m : ModelState} (h : m.pages ≠ []) : m.dim = (m.pages.getLast h).stop := by
  unfold ModelState.dim
  rw [List.getLast?_eq_some_getLast h]
  rfl

/-! ## The result -/

theorem lined_new (w : List Int64) (held : List Nat) (dc : Option String) (params : GenesisParams)
    (hw : w.length = (ModelState.genesis params.spec).dim) :
    Lined (ModelState.genesis params.spec) (BlockTree.new_paged w held dc params).canon.length
      (BlockTree.new_paged w held dc params) [(BlockTree.new w dc params).genesis_hash] := by
  obtain ⟨bases, heq, -⟩ := new_paged_eq w held dc params hw
  have hmem {ν : Type} {g h : String} {v : ν} (hh : h ∈ (∅ : Dict ν).insert g v) : h = g :=
    ((mem_insert_iff _ _ _ _).mp hh).resolve_right Std.ExtTreeMap.not_mem_empty
  rw [heq]
  constructor
  case shape =>
    refine ⟨rfl, (mem_insert_iff _ _ _ _).mpr (.inl rfl), (mem_insert_iff _ _ _ _).mpr (.inl rfl), fun h hh => ?_⟩
    obtain rfl := hmem hh
    exact ⟨_, .root⟩
  case paged => rfl
  case path => exact .root
  case only =>
    intro h hh
    rw [hmem hh]
    exact List.mem_singleton_self _
  case genesis_model => exact Std.ExtTreeMap.getElem?_insert_self
  case kept => exact ⟨rfl, fun h hh hne => absurd (hmem hh) hne⟩
  case tails => exact fun h u tail hu => absurd hu (by simp [BlockTree.new])
  case length => rfl
  case unconvicted => exact fun h => Std.ExtTreeSet.not_mem_empty

theorem Whole.chain {ss : List (Nat × Nat)} {k : Nat} {W : String → List Int64} (h : Whole ss k t W) (bs : List Block) :
    ∃ W', Whole ss k (t.run (deliver bs)) W' ∧ ∀ x ∈ t.blocks, W' x = W x := by
  induction bs generalizing t W with
  | nil => exact ⟨W, h, fun _ _ => rfl⟩
  | cons b bs ih =>
    obtain ⟨W₁, h₁, hsame⟩ := h.add_block b
    obtain ⟨W₂, h₂, hsame'⟩ := ih h₁
    exact ⟨W₂, h₂, fun x hx => (hsame' x (hsame x hx).2).trans (hsame x hx).1⟩

/-- Conviction restores a chain exactly when the node holds every page that has weights. -/
theorem conviction_restores_iff (genesis_w : List Int64) (held : List Nat) (dc : Option String) (params : GenesisParams)
    (hw : genesis_w.length = (ModelState.genesis params.spec).dim) (hdim : genesis_w.length < 2 ^ 32)
    (bs : List Block) (hbs : TakesAll (BlockTree.new_paged genesis_w held dc params) bs) (b : Block) (hb : b ∈ bs) :
    Restores genesis_w (0 :: held) params bs ((BlockTree.new_paged genesis_w held dc params).run (deliver bs)) b.hash ↔
      ∀ pid page, (ModelState.genesis params.spec).pages[pid]? = some page → page.start < page.stop →
        pid ∈ 0 :: held := by
  have hd := describes_genesis params.spec
  obtain ⟨bases, heq, hbased, hweights, hun⟩ := new_paged_eq genesis_w held dc params hw
  obtain ⟨l, hl, hgen, -, hmem⟩ := (lined_new genesis_w held dc params hw).run bs hbs
  obtain ⟨hbl, hbg⟩ := hmem b hb
  rw [← hgen] at hbg
  set t := (BlockTree.new_paged genesis_w held dc params).run (deliver bs) with ht
  have hcanon : (BlockTree.new_paged genesis_w held dc params).canon.length =
      (compact genesis_w bases (ModelState.genesis params.spec).spans).length := by rw [heq]
  have htiled : Tiled 0 (ModelState.genesis params.spec).spans genesis_w.length := hw ▸ hd.tiled
  constructor
  · intro hr pid page hpage hne
    by_contra hno
    -- the last page ends where the vector ends, past the compact one
    have hroom := hl.fits_room hbl hbg hr.in_bounds
    have hlast := (ModelState.genesis params.spec).pages.getLast_mem hd.pages_ne
    have hend := (dim_eq_last hd.pages_ne).symm.trans hw.symm
    have hlt := compact_lt htiled le_rfl ((hun pid (List.getElem?_eq_some_iff.mp hpage).1).mpr hno)
      (show (ModelState.genesis params.spec).spans[pid]? = some (span page) by simp [spans_eq, hpage]) hne
    have := hroom _ hlast
    rw [hend, hcanon] at this
    omega
  · intro hcov
    obtain ⟨W, hwhole, hW⟩ := (whole_new genesis_w held dc params hw hdim hcov).chain bs
    rw [← ht] at hwhole
    have hlen : (BlockTree.new_paged genesis_w held dc params).canon.length = genesis_w.length :=
      (whole_new genesis_w held dc params hw hdim hcov).canon_length
    rw [hlen] at hl
    have hWg : W t.genesis_hash = genesis_w := by
      rw [hgen]
      exact hW _ (whole_new genesis_w held dc params hw hdim hcov).shape.genesis_known
    obtain ⟨hline, hbest⟩ := hl.best_head hbl hbg
    obtain ⟨up, hf, -⟩ := hl.walk b.hash
    refine ⟨fun _ _ _ => ?_, [], List.nil_prefix, ?_⟩
    · rw [hbest]
      intro up' down m hf' hm
      obtain ⟨rfl, rfl⟩ := Prod.mk.inj (Except.ok.inj (hf'.symm.trans hf))
      obtain rfl := Option.some.inj (hm.symm.trans hl.genesis_model)
      refine ⟨hl.undo_fits b.hash up' t.canon hl.length hwhole.inside, trivial, fun page hpage => ?_⟩
      rw [List.reverse_nil, List.foldl_nil, hl.unwind_length b.hash, show (marked t b.hash).canon = t.canon from rfl,
        hl.length]
      exact htiled.stop_le (s := span page) (List.mem_map_of_mem hpage)
    · have hwhole' := hwhole.convict b.hash
      obtain ⟨canon, leaves, hconv⟩ := hl.convict_eq hbl hbg
      have hhead : (t.convict b.hash).2.head = t.genesis_hash := by rw [hconv]
      have hc : (t.convict b.hash).2.canon = genesis_w := by rw [hwhole'.canon, hhead, hWg]
      have hm : (t.convict b.hash).2.model[(t.convict b.hash).2.head]? = some (ModelState.genesis params.spec) := by
        rw [hhead, hconv]
        exact hl.genesis_model
      have hstands := hwhole'.standsAt hm rfl
      refine ⟨hhead, ?_, ?_⟩
      · have hcov' : Covers bases (ModelState.genesis params.spec).spans := by
          have := (whole_new genesis_w held dc params hw hdim hcov).covers
          rwa [heq] at this
        rw [hc]
        refine Eq.trans ?_ (hweights genesis_w)
        rw [hcov'.compact_eq hbased htiled]
        simp [slice]
      · rw [hstands.leaves, hc]
        rfl

end Any

open scoped Toy

namespace Toy

theorem one_taken : TakesAll paged_start [unbound_block] := ⟨paged_start_accepts, trivial⟩

variable {held : List Nat} {t f : BlockTree} {m : ModelState} {p : Parent}

/-- An empty block, with the full node's leaves as its witness. -/
def witnessed_by (f : BlockTree) (p : Parent) (pk : ByteArr 32) : Block :=
  { block_by f p f.head pk with witness_leaves := (f.add_block (block_by f p f.head pk)).2.page_leaves }

theorem accepts_by (pk : ByteArr 32) (hfull : f.held = none) (hp : f.parent_entries f.head = .ok p)
    (hconv : ∀ x, x ∉ f.convicted) (hfresh : (block_by f p f.head pk).hash ∉ f.blocks) :
    (f.add_block (block_by f p f.head pk)).1 = .ok true := by
  have hprev : (block_by f p f.head pk).header.prev_hash = f.head := rfl
  have hstep : f.add_block (block_by f p f.head pk) = f.connect_extend (block_by f p f.head pk) := by
    simp [add_block, hfresh, hconv, hfull, hprev]
  rw [hstep, connect_extend, hp]
  simp only [block_by_valid]

/-- Between two retargets nothing grows. -/
theorem fold_between {b : Block} {params : GenesisParams} (h : b.header.height % params.retarget_window ≠ 0) :
    (fold_block b m params).2 = [] := by
  unfold fold_block fold
  rw [if_neg fun hc => h hc.2]

theorem takes_by (h : Mirror held t f m) (hdim : f.canon.length < 2 ^ 32) (pk : ByteArr 32)
    (hp : f.parent_entries f.head = .ok p) (hfresh : (witnessed_by f p pk).hash ∉ f.blocks)
    (hwin : (p.height + 1) % f.params.retarget_window ≠ 0) : TakesAll t [witnessed_by f p pk] := by
  have hsame : f.add_block (witnessed_by f p pk) = f.add_block (block_by f p f.head pk) := add_block_witness h.full _ _
  have hok := accepts_by pk h.full hp (fun x => (h.unconvicted x).2) hfresh
  have hgrow : ¬ GrowsWith f (witnessed_by f p pk) := by
    rintro ⟨-, m', -, hne⟩
    exact hne (fold_between hwin)
  obtain ⟨⟨r, hr⟩, -⟩ := h.step (b := witnessed_by f p pk) rfl hdim ⟨true, by rw [hsame, hok]⟩ (by rw [hsame]; rfl) hgrow
  refine ⟨?_, trivial⟩
  rcases paged_add_block_cases h.paged (witnessed_by f p pk) with ⟨e, he⟩ | ⟨hk, -⟩ | ⟨q, r', -, -, -, -, -, he⟩
  · rw [he] at hr
    cases hr
  · exact absurd (h.blocks ▸ hk) hfresh
  · rw [he]

/-- The weights of a backbone and an expert page. -/
def two_pages : GenesisParams := { params with spec := { spec with n_experts_initial := 1 } }

def two_start : BlockTree := BlockTree.new [5, 0, 0, 0, 0] none two_pages

def two_parent : Parent :=
  { model := ModelState.genesis two_pages.spec, ledger := TokenLedger.new, height := 0, work := 0,
    jurors := two_start.recent_proposers two_start.head }

def two_block : Block := witnessed_by two_start two_parent (key 7)

theorem two_entries : two_start.parent_entries two_start.head = .ok two_parent := by
  simp [parent_entries, two_start, BlockTree.new, ok_or, genesis_ledger, genesis_header, two_parent]

theorem two_ne_head : two_block.hash ≠ two_start.head := by decide +kernel

theorem two_fresh : two_block.hash ∉ two_start.blocks := by
  intro h
  rw [show two_start.blocks = (∅ : Dict Header).insert two_start.head (genesis_header [5, 0, 0, 0, 0] two_pages) from rfl,
    mem_insert_iff] at h
  exact h.elim two_ne_head Std.ExtTreeMap.not_mem_empty

theorem two_taken : TakesAll (BlockTree.new_paged [5, 0, 0, 0, 0] [] none two_pages) [two_block] :=
  takes_by (f := two_start) (mirror_new [5, 0, 0, 0, 0] [] none two_pages rfl) (by decide) (key 7) two_entries two_fresh
    (by decide)

end Toy

theorem conviction_restores_start :
    Restores [5] [0] Toy.params [Toy.unbound_block] (Toy.paged_start.run (deliver [Toy.unbound_block]))
      Toy.unbound_block.hash := by
  refine (conviction_restores_iff [5] [] (some "owner") Toy.params rfl (by decide) [Toy.unbound_block] Toy.one_taken
    Toy.unbound_block List.mem_cons_self).mpr fun pid page hpage _ => ?_
  obtain rfl : pid = 0 := Nat.lt_one_iff.mp (List.getElem?_eq_some_iff.mp hpage).1
  exact List.mem_cons_self

/-- With a page that is not held, the rewind reads past the compact vector. -/
theorem conviction_out_of_bounds :
    TakesAll (BlockTree.new_paged [5, 0, 0, 0, 0] [] none Toy.two_pages) [Toy.two_block] ∧
      ¬ ConvictFits ((BlockTree.new_paged [5, 0, 0, 0, 0] [] none Toy.two_pages).run (deliver [Toy.two_block]))
        Toy.two_block.hash := by
  refine ⟨Toy.two_taken, fun hfits => ?_⟩
  obtain ⟨l, hl, hgen, -, hmem⟩ := (lined_new [5, 0, 0, 0, 0] [] none Toy.two_pages rfl).run _ Toy.two_taken
  obtain ⟨hbl, hbg⟩ := hmem _ List.mem_cons_self
  have hne := (describes_genesis Toy.two_pages.spec).pages_ne
  have hroom := hl.fits_room hbl (fun he => hbg (he.trans hgen)) hfits _ (List.getLast_mem hne)
  have hcanon : (BlockTree.new_paged [5, 0, 0, 0, 0] [] none Toy.two_pages).canon.length = 1 := rfl
  have hdim : (ModelState.genesis Toy.two_pages.spec).dim = 5 := rfl
  rw [← dim_eq_last hne] at hroom
  omega

end Sestrian
