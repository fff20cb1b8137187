import Sestrian.Tree.Fork

/-!
# Canon is the replay of the head chain, and a rejected block leaves no trace
-/

open Walk Check

namespace Sestrian

section Any

variable [Crypto]

variable {genesis_w : List Int64} {params : GenesisParams} {n : Logged} {S : String → List Int64 × ModelState}

open BlockTree

/-- `state_at` computes the weights of the block, without moving canon. -/
theorem Coherent.state_at_eq (hc : Coherent genesis_w params n S) {target : String} {w : List Int64}
    (h : n.tree.state_at target = .ok w) : target ∈ n.tree.blocks ∧ w = (S target).1 := by
  simp only [state_at, bind_eq_ok, require_eq_ok, pure_eq_ok] at h
  obtain ⟨⟨up, branch⟩, hf, -, hup, -, hbranch, rfl⟩ := h
  obtain ⟨hk, c, lc, hpc, hph, hpt, -⟩ := fork_walk_spec hc.shape hf
  have h₁ := (walk_moves hc.records up lc hph hpc fun h hh => Std.ExtTreeMap.contains_iff_mem.mp (hup h hh)).1
  have h₂ := (walk_moves hc.records branch lc hpt hpc fun h hh =>
    hc.records.redo_undo h (Std.ExtTreeMap.contains_iff_mem.mp (hbranch h hh))).2
  refine ⟨hk, ?_⟩
  rw [hc.canon, h₁, h₂]

/-- What the tree shows of a block is the dense replay of the chain of that block. -/
structure ShowsReplay (genesis_w : List Int64) (params : GenesisParams) (n : Logged) : Prop where
  head : ∃ chain, Chain n.log n.tree.genesis_hash n.tree.head chain ∧
    n.tree.head_state = (replay genesis_w params chain).1
  state_at : ∀ target w, n.tree.state_at target = .ok w →
    ∃ chain, Chain n.log n.tree.genesis_hash target chain ∧ w = (replay genesis_w params chain).1
  with_state_at : ∀ (R : Type) (f : List Int64 → R) target r t', n.tree.with_state_at target f = (.ok r, t') →
    ∃ chain, Chain n.log n.tree.genesis_hash target chain ∧ r = f (replay genesis_w params chain).1

theorem run_shows_replay (genesis_w : List Int64) (dc : Option String) (params : GenesisParams)
    (hw : genesis_w.length = (ModelState.genesis params.spec).dim) (ops : List Op) :
    ShowsReplay genesis_w params ((Logged.new genesis_w dc params).run ops) := by
  obtain ⟨S, hc⟩ := coherent_run hw dc ops
  refine ⟨?_, fun target w h => ?_, fun R f target r t' h => ?_⟩
  · obtain ⟨chain, hch⟩ := hc.chain hc.shape.head_known
    exact ⟨chain, hch, by rw [hc.replay_eq hch]; exact hc.canon⟩
  · obtain ⟨hk, rfl⟩ := hc.state_at_eq h
    obtain ⟨chain, hch⟩ := hc.chain hk
    exact ⟨chain, hch, by rw [hc.replay_eq hch]⟩
  · rcases hc.with_state_at_cases target f with ⟨e, he⟩ | ⟨hk, he⟩
    · rw [he] at h
      exact absurd (congrArg Prod.fst h) (by simp)
    · rw [he] at h
      obtain rfl : f (S target).1 = r := by simpa using congrArg Prod.fst h
      obtain ⟨chain, hch⟩ := hc.chain hk
      exact ⟨chain, hch, by rw [hc.replay_eq hch]⟩

/-- A failed call leaves the whole tree as it was, and a rewind is undone by rolling forward. -/
structure RejectsCleanly (t : BlockTree) : Prop where
  add_block : ∀ b e t', t.add_block b = (.error e, t') → t' = t
  rewind_to : ∀ target e t', t.rewind_to target = (.error e, t') → t' = t
  roll_forward : ∀ target plan t', t.rewind_to target = (.ok plan, t') → t'.roll_forward plan = t

theorem run_rejects_cleanly (genesis_w : List Int64) (dc : Option String) (params : GenesisParams)
    (hw : genesis_w.length = (ModelState.genesis params.spec).dim) (ops : List Op) :
    RejectsCleanly ((BlockTree.new genesis_w dc params).run ops) := by
  obtain ⟨S, hc⟩ := coherent_run hw dc ops
  rw [show (BlockTree.new genesis_w dc params).run ops = _ from ((Logged.new genesis_w dc params).run_tree ops).symm]
  refine ⟨fun b e t' h => ?_, fun target e t' h => ?_, fun target plan t' h => ?_⟩
  · rcases hc.add_block_cases b with ⟨e', he⟩ | ⟨-, he⟩ | ⟨p, staged, -, he⟩ <;> rw [he] at h
    · exact (congrArg Prod.snd h).symm
    · exact absurd (congrArg Prod.fst h) (by simp)
    · exact absurd (congrArg Prod.fst h) (by simp)
  · rcases hc.rewind_cases target with ⟨e', he⟩ | ⟨up, down, -, -, -, he⟩ <;> rw [he] at h
    · exact (congrArg Prod.snd h).symm
    · exact absurd (congrArg Prod.fst h) (by simp)
  · rcases hc.rewind_cases target with ⟨e', he⟩ | ⟨up, down, hf, -, hu, he⟩ <;> rw [he] at h
    · exact absurd (congrArg Prod.fst h) (by simp)
    · obtain ⟨hplan, rfl⟩ := Prod.mk.inj h
      obtain rfl := Except.ok.inj hplan
      exact roll_forward_rewound hc.shape hc.records hc.canon hf hu _ (fun _ _ => rfl) (fun _ _ => rfl) rfl

end Any

open scoped Toy

/-- Two branches of three blocks, of which the second is parked. -/
theorem run_shows_replay_branches :
    let n := (Logged.new [5] none Toy.grow_params).run (deliver (Toy.alpha_branch ++ Toy.beta_branch))
    n.tree.head = Toy.a₃.hash ∧ Toy.b₃.hash ∈ n.tree.blocks ∧ ShowsReplay [5] Toy.grow_params n := by
  intro n
  obtain ⟨S, h⟩ := Toy.knows_both
  exact ⟨h.head, (h.holds Toy.b₃ (by simp)).known, run_shows_replay [5] none Toy.grow_params (by decide) _⟩

theorem run_rejects_cleanly_branches :
    let t := Toy.root.run (deliver (Toy.alpha_branch ++ Toy.beta_branch))
    t.head = Toy.a₃.hash ∧ Toy.b₃.hash ∈ t.blocks ∧ RejectsCleanly t := by
  intro t
  obtain ⟨S, h⟩ := Toy.knows_both
  have ht : _ = t := Toy.root_run_tree _
  exact ⟨ht ▸ h.head, ht ▸ (h.holds Toy.b₃ (by simp)).known, run_rejects_cleanly [5] none Toy.grow_params (by decide) _⟩

end Sestrian
