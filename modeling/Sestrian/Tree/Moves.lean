import Sestrian.Tree.Spec
import Mathlib.Data.List.Perm.Subperm

/-!
# Moving canon along the tree

`rewind_to` walks from the head to the last block it shares with the target, and from there
to the target. `S` gives the weights each block stands for. When every record moves between
the weights of a block and of its parent, a walk moves between the weights of its ends.
-/

open Walk Check

namespace Sestrian.BlockTree

/-! ## The shape of the tree -/

/-- Every known block has a line of known blocks down to genesis. -/
structure Shape (t : BlockTree) : Prop where
  full : t.held = none
  genesis_known : t.genesis_hash ∈ t.blocks
  head_known : t.head ∈ t.blocks
  line : ∀ h ∈ t.blocks, ∃ l, Path t.parent t.genesis_hash h l

variable {t : BlockTree}

theorem parent_some {h p : String} (hp : t.parent h = some p) : h ∈ t.blocks := by
  cases hb : t.blocks[h]? with
  | none => simp [parent, hb] at hp
  | some hd => exact Std.ExtTreeMap.mem_iff_isSome_getElem?.mpr (by simp [hb])

theorem Shape.line_known (hs : t.Shape) {h : String} {l : List String} (hl : Path t.parent t.genesis_hash h l) :
    ∀ x ∈ l, x ∈ t.blocks := by
  induction hl with
  | root => simpa using hs.genesis_known
  | step _ hp _ ih => simpa [parent_some hp] using ih

theorem Shape.parent_known (hs : t.Shape) {h p : String} (hp : t.parent h = some p)
    (hne : h ≠ t.genesis_hash) : p ∈ t.blocks := by
  obtain ⟨l, hl⟩ := hs.line h (parent_some hp)
  cases hl with
  | root => exact absurd rfl hne
  | step _ hp' hl =>
    obtain rfl := Option.some.inj (hp.symm.trans hp')
    exact hs.line_known hl p hl.start_mem

/-- No line is longer than the fuel of a walk. -/
theorem Shape.line_length (hs : t.Shape) {h : String} {l : List String}
    (hl : Path t.parent t.genesis_hash h l) : l.length ≤ t.walk_fuel := by
  have hsub : l ⊆ t.blocks.keys := fun x hx => Std.ExtTreeMap.mem_keys.mpr (hs.line_known hl x hx)
  have hle := hl.nodup.subperm hsub |>.length_le
  rw [Std.ExtTreeMap.length_keys] at hle
  exact hle.trans (Nat.le_succ _)

/-- The blocks that `rewind_to` takes for the head line are that line. -/
theorem Shape.on_head (hs : t.Shape) {lh : List String} (hlh : Path t.parent t.genesis_hash t.head lh) :
    (walk t.parent (· = t.genesis_hash) t.walk_fuel t.head).1 ++
      [(walk t.parent (· = t.genesis_hash) t.walk_fuel t.head).2] = lh := by
  obtain ⟨l₂, hl, hp, hstop, -⟩ := walk_path (· = t.genesis_hash) hlh ⟨_, hlh.root_mem, by simp⟩ t.walk_fuel
    (hs.line_length hlh)
  have hroot : (walk t.parent (· = t.genesis_hash) t.walk_fuel t.head).2 = t.genesis_hash := by simpa using hstop
  rw [hroot] at hp ⊢
  rw [hl, hp.unique .root]

/-- The two lines meet: what is left of each is one line. -/
theorem fork_walk_spec (hs : t.Shape) {target : String} {up down : List String}
    (h : t.fork_walk target = .ok (up, down)) :
    target ∈ t.blocks ∧ ∃ c lc, Path t.parent t.genesis_hash c lc ∧
      Path t.parent t.genesis_hash t.head (up ++ lc) ∧
      Path t.parent t.genesis_hash target (down ++ lc) ∧ ∀ x ∈ down, x ∉ up ++ lc := by
  obtain ⟨lh, hlh⟩ := hs.line t.head hs.head_known
  simp only [fork_walk, hs.on_head hlh, bind_eq_ok, require_eq_ok, pure_eq_ok, Prod.mk.injEq] at h
  obtain ⟨-, hcommon, rfl, rfl⟩ := h
  have hknown : target ∈ t.blocks := by
    by_contra hno
    -- an unknown target is not on the head line and has no parent
    have hnone : t.parent target = none := by
      rw [Std.ExtTreeMap.mem_iff_isSome_getElem?] at hno
      simpa [parent] using hno
    have hnot : target ∉ lh := fun hm => hno (hs.line_known hlh target hm)
    have : walk t.parent (lh.contains ·) t.walk_fuel target = ([], target) := by
      simp [walk, walk_fuel, hnot, hnone]
    rw [this] at hcommon
    exact hnot hcommon
  obtain ⟨lt, hlt⟩ := hs.line target hknown
  obtain ⟨lc, hl', hpc, hstop', hdown⟩ := walk_path (lh.contains ·) hlt
    ⟨_, hlt.root_mem, by simpa using hlh.root_mem⟩ t.walk_fuel (hs.line_length hlt)
  set c := (walk t.parent (lh.contains ·) t.walk_fuel target).2
  obtain ⟨lc', hl'', hpc', hstop'', -⟩ := walk_path (· = c) hlh ⟨c, by simpa using hstop', by simp⟩
    t.walk_fuel (hs.line_length hlh)
  have hc : (walk t.parent (· = c) t.walk_fuel t.head).2 = c := by simpa using hstop''
  rw [hc] at hpc'
  obtain rfl := hpc.unique hpc'
  refine ⟨hknown, c, lc, hpc, hl'' ▸ hlh, hl' ▸ hlt, fun x hx => ?_⟩
  rw [← hl'']
  simpa using hdown x hx

theorem fork_walk_known (hs : t.Shape) {target : String} (hk : target ∈ t.blocks) :
    ∃ up down, t.fork_walk target = .ok (up, down) := by
  obtain ⟨lh, hlh⟩ := hs.line t.head hs.head_known
  obtain ⟨lt, hlt⟩ := hs.line target hk
  obtain ⟨-, -, -, hstop', -⟩ := walk_path (lh.contains ·) hlt
    ⟨_, hlt.root_mem, by simpa using hlh.root_mem⟩ t.walk_fuel (hs.line_length hlt)
  have hc : (walk t.parent (lh.contains ·) t.walk_fuel target).2 ∈ lh := by simpa using hstop'
  simp only [fork_walk, hs.on_head hlh, bind_eq_ok, require_eq_ok, pure_eq_ok, hc]
  simp

/-! ## Records -/

/-- The record of a block takes the weights of its parent to its own and back. -/
structure Moves (w w' : List Int64) (undo redo : List (UInt32 × Int64)) (tail : List Int64) : Prop where
  forth : apply_redo w redo ++ tail = w'
  back : apply_undo (apply_redo w redo) undo = w

/-- Every record that is kept is right, and undo and redo are kept together. -/
structure Records (t : BlockTree) (S : String → List Int64) : Prop where
  moves : ∀ h u tail, t.undo[h]? = some (u, tail) →
    ∃ r p, t.redo[h]? = some r ∧ h ≠ t.genesis_hash ∧ t.parent h = some p ∧ Moves (S p) (S h) u r tail
  redo_undo : ∀ h ∈ t.redo, h ∈ t.undo

variable {S : String → List Int64}

theorem Records.unwind (hr : t.Records S) {h p : String} (hh : h ∈ t.undo) (hp : t.parent h = some p) :
    t.unwind (S h) h = S p := by
  obtain ⟨⟨u, tail⟩, hu⟩ := Option.isSome_iff_exists.mp (Std.ExtTreeMap.mem_iff_isSome_getElem?.mp hh)
  obtain ⟨r, p', -, -, hp', hm⟩ := hr.moves h u tail hu
  obtain rfl := Option.some.inj (hp.symm.trans hp')
  simp only [BlockTree.unwind, hu, Option.getD_some]
  rw [← hm.forth, List.length_append, Nat.add_sub_cancel, List.take_left', hm.back]
  rfl

theorem Records.replay (hr : t.Records S) {h p : String} (hh : h ∈ t.undo) (hp : t.parent h = some p) :
    t.replay_record (S p) h = S h := by
  obtain ⟨⟨u, tail⟩, hu⟩ := Option.isSome_iff_exists.mp (Std.ExtTreeMap.mem_iff_isSome_getElem?.mp hh)
  obtain ⟨r, p', hr', -, hp', hm⟩ := hr.moves h u tail hu
  obtain rfl := Option.some.inj (hp.symm.trans hp')
  simp only [replay_record, hu, hr', Option.getD_some]
  exact hm.forth

/-- Along a line with all its records, canon can be moved both ways. -/
theorem walk_moves (hr : t.Records S) {a c : String} (up lc : List String)
    (ha : Path t.parent t.genesis_hash a (up ++ lc)) (hc : Path t.parent t.genesis_hash c lc)
    (hu : ∀ h ∈ up, h ∈ t.undo) :
    up.foldl t.unwind (S a) = S c ∧ up.reverse.foldl t.replay_record (S c) = S a := by
  induction up generalizing a with
  | nil =>
    have : a = c := by
      cases ha <;> cases hc <;> simp_all
    simp [this]
  | cons x up ih =>
    have hlc : lc ≠ [] := by rintro rfl; cases hc
    obtain ⟨b, rfl, hp, hb⟩ := ha.uncons (by simp [hlc])
    obtain ⟨h₁, h₂⟩ := ih hb fun h hh => hu h (List.mem_cons_of_mem _ hh)
    have hx := hu x List.mem_cons_self
    constructor
    · rw [List.foldl_cons, hr.unwind hx hp, h₁]
    · rw [List.reverse_cons, List.foldl_append, h₂]
      exact hr.replay hx hp

theorem unwind_congr {t' : BlockTree} {l : List String} (hu : ∀ h ∈ l, t'.undo[h]? = t.undo[h]?)
    (w : List Int64) : l.foldl t'.unwind w = l.foldl t.unwind w := by
  induction l generalizing w with
  | nil => rfl
  | cons h l ih =>
    simp only [List.foldl_cons, BlockTree.unwind, hu h List.mem_cons_self]
    exact ih (fun x hx => hu x (List.mem_cons_of_mem _ hx)) _

theorem replay_record_congr {t' : BlockTree} {l : List String} (hu : ∀ h ∈ l, t'.undo[h]? = t.undo[h]?)
    (hr : ∀ h ∈ l, t'.redo[h]? = t.redo[h]?) (w : List Int64) :
    l.foldl t'.replay_record w = l.foldl t.replay_record w := by
  induction l generalizing w with
  | nil => rfl
  | cons h l ih =>
    simp only [List.foldl_cons, replay_record, hu h List.mem_cons_self, hr h List.mem_cons_self]
    exact ih (fun x hx => hu x (List.mem_cons_of_mem _ hx)) (fun x hx => hr x (List.mem_cons_of_mem _ hx)) _

variable [Crypto]

/-- The leaf cache that a rewind to `target` leaves. -/
def rewound_leaves (t : BlockTree) (w : List Int64) (up down : List String) (m : ModelState) : List Hash :=
  refresh_leaves w t.page_leaves m (t.touched_pages m (up ++ down))

/-- A rewind either fails and changes nothing, or puts canon at the target. -/
theorem rewind_to_cases (hs : t.Shape) (hr : t.Records S) (hcanon : t.canon = S t.head)
    (hmodel : ∀ h ∈ t.blocks, h ∈ t.model) (target : String) :
    (∃ e, t.rewind_to target = (.error e, t)) ∨
    ∃ up down m, t.fork_walk target = .ok (up, down) ∧ t.model[target]? = some m ∧
      (∀ h ∈ up ++ down, h ∈ t.undo) ∧
      t.rewind_to target = (.ok { up, down, saved_leaves := t.page_leaves },
        { t with canon := S target, page_leaves := t.rewound_leaves (S target) up down m }) := by
  unfold rewind_to
  cases hf : t.fork_walk target with
  | error e => exact .inl ⟨e, rfl⟩
  | ok ud =>
    obtain ⟨up, down⟩ := ud
    simp only
    split
    · exact .inl ⟨_, rfl⟩
    · next hall =>
      obtain ⟨hk, c, lc, hc, hup, hdown, -⟩ := fork_walk_spec hs hf
      obtain ⟨m, hm⟩ := Option.isSome_iff_exists.mp
        (Std.ExtTreeMap.mem_iff_isSome_getElem?.mp (hmodel target hk))
      have hu : ∀ h ∈ up ++ down, h ∈ t.undo := fun h hh => by
        by_contra hno
        exact hall ⟨h, hh, fun hc => hno hc.1⟩
      have h₁ := (walk_moves hr up lc hup hc fun h hh => hu h (List.mem_append_left _ hh)).1
      have h₂ := (walk_moves hr down lc hdown hc fun h hh => hu h (List.mem_append_right _ hh)).2
      refine .inr ⟨up, down, m, rfl, hm, hu, ?_⟩
      simp only [hm, hcanon, h₁, h₂, rewound_leaves]

omit [Crypto] in
/-- Rolling forward after a rewind puts canon and the leaf cache back. The tree `t'` may have
gained records in between. -/
theorem roll_forward_rewound (hs : t.Shape) (hr : t.Records S) (hcanon : t.canon = S t.head) {target : String}
    {up down : List String} (hf : t.fork_walk target = .ok (up, down)) (hu : ∀ h ∈ up ++ down, h ∈ t.undo)
    (t' : BlockTree) (hundo : ∀ h ∈ t.undo, t'.undo[h]? = t.undo[h]?)
    (hredo : ∀ h ∈ t.undo, t'.redo[h]? = t.redo[h]?) (hat : t'.canon = S target) :
    t'.roll_forward { up, down, saved_leaves := t.page_leaves } =
      { t' with canon := t.canon, page_leaves := t.page_leaves } := by
  obtain ⟨-, c, lc, hc, hup, hdown, -⟩ := fork_walk_spec hs hf
  have hu₁ : ∀ h ∈ up, h ∈ t.undo := fun h hh => hu h (List.mem_append_left _ hh)
  have hu₂ : ∀ h ∈ down, h ∈ t.undo := fun h hh => hu h (List.mem_append_right _ hh)
  unfold roll_forward
  congr 1
  simp only [hat]
  rw [unwind_congr fun h hh => hundo h (hu₂ h hh), (walk_moves hr down lc hdown hc hu₂).1,
    replay_record_congr (fun h hh => hundo h (hu₁ h (List.mem_reverse.mp hh)))
      (fun h hh => hredo h (hu₁ h (List.mem_reverse.mp hh))),
    (walk_moves hr up lc hup hc hu₁).2, hcanon]

end Sestrian.BlockTree
