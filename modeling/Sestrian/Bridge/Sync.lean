import Sestrian.Bridge.Story
import Sestrian.Tree.Growth
import Sestrian.Node.Early

/-!
# The trainer beside a node that moves

The node moves its head while the bridge and the trainer work through the channel. Requests that
run for the height of the head run on its state, as long as no message of a head move is dropped.
A dropped difference is not seen: the next one fits.
-/

namespace Sestrian.bridge

open Patch Aggregate

variable {layout_n : List UInt64 → Option Nat}

/-! ## What the node sends -/

section Node

variable [Crypto] {genesis_w : List Int64} {params : GenesisParams} {n : Logged} {S : String → List Int64 × ModelState}

/-- No redo log names a place twice. -/
def DistinctRedo (t : BlockTree) : Prop := ∀ (h : String) (r : List (UInt32 × Int64)), t.redo[h]? = some r → Distinct place r

omit [Crypto] in
theorem DistinctRedo.congr {t t' : BlockTree} (ht : DistinctRedo t) (h : t'.redo = t.redo) : DistinctRedo t' :=
  fun x r hr => ht x r (h ▸ hr)

theorem DistinctRedo.connected {t : BlockTree} (ht : DistinctRedo t) (b : Block) (p : BlockTree.Parent) (staged : Staged) :
    DistinctRedo (t.connected S b p staged).prune_deep := by
  intro h r hr
  have hredo : (t.connected S b p staged).redo = t.redo.insert b.hash staged.agg.toList := by
    unfold BlockTree.connected
    split <;> rfl
  obtain ⟨doomed, pin, hp⟩ := (t.connected S b p staged).prune_deep_cases
  rw [hp] at hr
  simp only [get_erase_all, hredo, SumMap.get_insert] at hr
  split at hr
  · cases hr
  · split at hr
    · obtain rfl := Option.some.inj hr
      exact distinct_toList staged.agg
    · exact ht h r hr

theorem DistinctRedo.step (hc : Coherent genesis_w params n S) (ht : DistinctRedo n.tree) (op : Op) :
    DistinctRedo (n.step op).tree := by
  cases op with
  | add_block b =>
    rcases hc.add_block_cases b with ⟨e, h⟩ | ⟨-, h⟩ | ⟨p, staged, -, h⟩
    · exact ht.congr (by simp [Logged.step, BlockTree.step, h])
    · exact ht.congr (by simp [Logged.step, BlockTree.step, h])
    · simpa only [Logged.step, BlockTree.step, h] using ht.connected b p staged
  | with_state_at target =>
    rcases hc.with_state_at_cases target id with ⟨e, h⟩ | ⟨-, h⟩
    · exact ht.congr (by simp [Logged.step, BlockTree.step, h])
    · exact ht.congr (by simp [Logged.step, BlockTree.step, h])
  | convict h =>
    rcases hc.convict_cases h with he | ⟨target, up, down, -, -, -, -, -, he⟩
    · exact ht.congr (by simp [Logged.step, BlockTree.step, he])
    · exact ht.congr (by simp [Logged.step, BlockTree.step, he, BlockTree.moved_off])
  | set_prune_depth depth => exact ht.congr rfl
  | mark_verified txid => exact ht.congr rfl

/-- What a head that extends the old one adds to its state. -/
theorem head_extends (hc : Coherent genesis_w params n S) (ht : DistinctRedo n.tree) {old_head : String}
    {coords : List (UInt32 × Int64)}
    (hseq : (n.tree.blocks[n.tree.head]?.map fun hh => decide (hh.prev_hash = old_head)).getD false = true)
    (happ : n.tree.redo[n.tree.head]? = some coords) :
    Distinct place coords ∧
    n.tree.head_state =
      apply_redo (S old_head).1 coords ++ (n.tree.undo[n.tree.head]?.map (·.2)).getD [] := by
  refine ⟨ht _ _ happ, ?_⟩
  have hredo : n.tree.head ∈ n.tree.redo := Std.ExtTreeMap.mem_iff_isSome_getElem?.mpr (by simp [happ])
  obtain ⟨⟨u, tail⟩, hu⟩ :=
    Option.isSome_iff_exists.mp (Std.ExtTreeMap.mem_iff_isSome_getElem?.mp (hc.records.redo_undo _ hredo))
  obtain ⟨r, p, hr, -, hp, hm⟩ := hc.records.moves _ u tail hu
  obtain rfl := Option.some.inj (hr.symm.trans happ)
  have hold : p = old_head := by
    cases hb : n.tree.blocks[n.tree.head]? with
    | none => simp [hb] at hseq
    | some hh =>
      simp only [hb, Option.map_some, Option.getD_some, decide_eq_true_eq] at hseq
      simp only [BlockTree.parent, hb, Option.map_some, Option.some.injEq] at hp
      exact hp.symm.trans hseq
  rw [hu, Option.map_some, Option.getD_some, ← hold, hm.forth]
  exact hc.canon

theorem head_messages_story (hc : Coherent genesis_w params n S) (ht : DistinctRedo n.tree) (old_head : String)
    (height : UInt64)
    (hgrow : ∀ g d l i, .Grow g d l i ∈ head_messages n.tree old_head → HasLayout layout_n) :
    Story layout_n (head_copy n.tree) ⟨height, (S old_head).1⟩ (head_messages n.tree old_head) := by
  have hfull : Story layout_n (head_copy n.tree) ⟨height, (S old_head).1⟩ [full_state n.tree] :=
    .state _ _ _ .done
  have hext := @head_extends _ _ _ _ _ hc ht old_head
  generalize htail : (n.tree.undo[n.tree.head]?.map (·.2)).getD [] = tail at hext
  unfold head_messages at hgrow ⊢
  simp only [htail] at hgrow ⊢
  generalize (n.tree.blocks[n.tree.head]?.map fun hh => decide (hh.prev_hash = old_head)).getD false = seq at hext hgrow ⊢
  match seq, happ : n.tree.redo[n.tree.head]? with
  | false, _ => exact hfull
  | true, none => exact hfull
  | true, some coords =>
    obtain ⟨hdist, hstate⟩ := hext rfl happ
    have hlen : n.tree.head_state.length = (S old_head).1.length + tail.length := by
      rw [hstate, List.length_append, length_apply_redo]
    simp only [happ] at hgrow ⊢
    split
    · next hempty =>
      obtain rfl := List.isEmpty_iff.mp hempty
      rw [hlen]
      refine .advance _ hdist ?_
      have hcopy : head_copy n.tree = ⟨head_height n.tree, apply_redo (S old_head).1 coords⟩ := by
        rw [head_copy, hstate, List.append_nil]
      exact hcopy ▸ .done
    · next hne =>
      cases hlast : (head_pages n.tree).getLast? with
      | none => exact hfull
      | some page =>
        simp only
        split
        · next hone =>
          have hlayout : HasLayout layout_n := hgrow (head_height n.tree) n.tree.head_state.length page.layer tail (by
            simp [hne, hlast, hone])
          rw [hlen, Nat.add_sub_cancel]
          refine .advance _ hdist (.grow _ _ _ _ hlayout ?_)
          have hcopy : head_copy n.tree = ⟨head_height n.tree, apply_redo (S old_head).1 coords ++ tail⟩ := by
            rw [head_copy, hstate]
          exact hcopy ▸ .done
        · exact hfull

/-- A call that keeps the head keeps its copy. -/
theorem head_copy_step (hc : Coherent genesis_w params n S) {op : Op} (hhead : (n.step op).tree.head = n.tree.head) :
    head_copy (n.step op).tree = head_copy n.tree := by
  obtain ⟨S', hc', hS⟩ := hc.step op
  have hstate : (n.step op).tree.head_state = n.tree.head_state := by
    unfold BlockTree.head_state
    rw [hc'.canon, hc.canon, hhead, hS _ hc.shape.head_known]
  have hblock : (n.step op).tree.blocks[n.tree.head]? = n.tree.blocks[n.tree.head]? := by
    rcases hc.step_entries op with hs | ⟨b, p, staged, -, ha, h⟩
    · rw [hs.blocks]
    · have hne : ¬ b.hash = n.tree.head := fun he => ha.fresh (he ▸ hc.shape.head_known)
      rw [h]
      simp only [prune_deep_frame, connected_frame, SumMap.get_insert, hne, if_false]
  unfold head_copy head_height
  rw [hstate, hhead, hblock]

/-! ## The system -/

/-- `chan` is the channel of the node, `wire` what the bridge task has written and the trainer has not read,
`asks` the requests for a full state that the node has not handled. -/
structure Session where
  tree : BlockTree
  bridge_synced : Bool
  chan : List ToBridge
  wire : List ToBridge
  asks : Nat
  trainer : Trainer

namespace Session

def send_all (s : Session) (ms : List ToBridge) : Session :=
  { s with chan := ms.foldl (fun c m => (try_send c m).2) s.chan }

def send_bridge_state (s : Session) : Session :=
  let (ok, chan) := try_send s.chan (full_state s.tree)
  { s with chan, bridge_synced := s.bridge_synced || ok }

/-- A call on the node's tree, and `on_head_advance` where it moved the head. -/
def call (s : Session) (op : Op) : Session :=
  let s' := { s with tree := s.tree.step op }
  if s.bridge_synced && s'.tree.head ≠ s.tree.head then s'.send_all (head_messages s'.tree s.tree.head) else s'

end Session

inductive Event where
  | call (op : Op)
  | request_train
  | request_evals
  | request_generate
  | handle_ask
  | write
  | read
  | reconnect (lost : Bool)

namespace Session

variable (layout_n) in
/-- Who does what: the node moves its head, requests and answers; the bridge task writes; the trainer
reads, and may connect anew, when what was on the wire is gone. An exception ends its process. -/
def step (s : Session) : Event → Session
  | .call op => s.call op
  | .request_train => if s.bridge_synced then s.send_all [.Train (head_height s.tree)] else s
  | .request_evals => if s.bridge_synced then s.send_all [.Eval (head_height s.tree)] else s
  | .request_generate => if s.bridge_synced then s.send_all [.Generate] else s
  | .handle_ask => if s.asks = 0 then s else { s with asks := s.asks - 1 }.send_bridge_state
  | .write => match s.chan with
    | [] => s
    | m :: chan => { s with chan, wire := s.wire ++ [m] }
  | .read => match s.wire with
    | [] => s
    | m :: wire => match s.trainer.receive layout_n m with
      | some (trainer, ask) => { s with wire, trainer, asks := if ask then s.asks + 1 else s.asks }
      | none => { s with wire := [], trainer := .new }
  | .reconnect lost =>
    { s with
      wire := []
      trainer := s.trainer.reconnect
      asks := s.asks + 1
      chan := if lost then s.chan.tail else s.chan }

variable (layout_n) in
def run (s : Session) (es : List Event) : Session := es.foldl (step layout_n) s

/-- The bridge is up, nothing was sent, and no trainer has connected. -/
def new (tree : BlockTree) : Session :=
  { tree, bridge_synced := false, chan := [], wire := [], asks := 0, trainer := .new }

variable (layout_n) in
/-- A move of the head drops none of its messages, goes to a height that no request on its way is for, and
sends a page only to a model with a layout. -/
def MovesWell (s : Session) (op : Op) : Prop :=
  let ms := head_messages (s.tree.step op) s.tree.head
  let h := head_height (s.tree.step op)
  s.chan.length + ms.length ≤ CAPACITY ∧
  (.Train h ∉ s.wire ++ s.chan ∧ .Eval h ∉ s.wire ++ s.chan) ∧
  ∀ g d l i, .Grow g d l i ∈ ms → HasLayout layout_n

variable (layout_n) in
/-- Every move of the head is made well while the bridge is synced. -/
def Fine (s : Session) (e : Event) : Prop :=
  match e with
  | .call op => s.bridge_synced → (s.tree.step op).head ≠ s.tree.head → s.MovesWell layout_n op
  | _ => True

variable (layout_n) in
def FineRun (s : Session) : List Event → Prop
  | [] => True
  | e :: es => s.Fine layout_n e ∧ (s.step layout_n e).FineRun es

variable (layout_n genesis_w params) in
/-- The messages on their way lead the trainer's copy to the head's. -/
structure InSync (s : Session) : Prop where
  coherent : ∃ log S, Coherent genesis_w params ⟨s.tree, log⟩ S
  distinct : DistinctRedo s.tree
  story : ∃ c, Story layout_n (head_copy s.tree) c (s.wire ++ s.chan) ∧ Holds s.trainer c
  quiet : s.bridge_synced = false → s.wire ++ s.chan = [] ∧ s.trainer.state = none

variable {s : Session}

omit [Crypto] in
theorem foldl_try_send {chan ms : List ToBridge} (h : chan.length + ms.length ≤ CAPACITY) :
    ms.foldl (fun c m => (try_send c m).2) chan = chan ++ ms := by
  induction ms generalizing chan with
  | nil => simp
  | cons m ms ih =>
    simp only [List.length_cons] at h
    have hroom : chan.length < CAPACITY := by omega
    rw [List.foldl_cons, try_send, if_pos hroom, ih (by simp; omega), List.append_assoc]
    rfl

/-- A message that tells of the head as it is may be sent or dropped. -/
theorem InSync.send_one (hs : s.InSync layout_n genesis_w params) (hsync : s.bridge_synced = true)
    {m : ToBridge} (hm : Story layout_n (head_copy s.tree) (head_copy s.tree) [m]) :
    (s.send_all [m]).InSync layout_n genesis_w params := by
  refine { hs with quiet := fun h => by simp [send_all, hsync] at h, story := ?_ }
  obtain ⟨c, hst, ht⟩ := hs.story
  refine ⟨c, ?_, ht⟩
  simp only [send_all, List.foldl_cons, List.foldl_nil, try_send]
  split
  · rw [← List.append_assoc]
    exact hst.append (.inl rfl) hm
  · exact hst

theorem InSync.send_bridge_state (hs : s.InSync layout_n genesis_w params) :
    s.send_bridge_state.InSync layout_n genesis_w params := by
  obtain ⟨c, hst, ht⟩ := hs.story
  unfold Session.send_bridge_state try_send
  by_cases hroom : s.chan.length < CAPACITY
  · simp only [hroom, if_true]
    refine { hs with story := ⟨c, ?_, ht⟩, quiet := fun h => by simp at h }
    rw [← List.append_assoc]
    exact hst.append (.inl rfl) (.state _ _ _ .done)
  · simp only [hroom, if_false, Bool.or_false]
    exact hs

theorem InSync.call (hs : s.InSync layout_n genesis_w params) {op : Op} (hf : s.Fine layout_n (.call op)) :
    (s.call op).InSync layout_n genesis_w params := by
  obtain ⟨log, S, hc⟩ := hs.coherent
  obtain ⟨S', hc', hS⟩ := hc.step op
  have hd' : DistinctRedo (s.tree.step op) := hs.distinct.step hc op
  have htree : ∃ log S, Coherent genesis_w params ⟨s.tree.step op, log⟩ S := ⟨_, S', hc'⟩
  obtain ⟨c, hst, ht⟩ := hs.story
  unfold Session.call
  dsimp only
  split
  · next h =>
    obtain ⟨hsync, hhead⟩ : s.bridge_synced = true ∧ (s.tree.step op).head ≠ s.tree.head := by simpa using h
    obtain ⟨hroom, hfree, hgrow⟩ := hf hsync hhead
    have hmsgs : Story layout_n (head_copy (s.tree.step op)) (head_copy s.tree)
        (head_messages (s.tree.step op) s.tree.head) := by
      have := head_messages_story hc' hd' s.tree.head (head_height s.tree) hgrow
      rwa [hS _ hc.shape.head_known, ← hc.canon] at this
    refine { coherent := htree, distinct := hd', story := ⟨c, ?_, ht⟩, quiet := fun h => absurd (h.symm.trans hsync) nofun }
    simp only [send_all, foldl_try_send hroom]
    rw [← List.append_assoc]
    exact hst.append (.inr hfree) hmsgs
  · next h =>
    by_cases hhead : (s.tree.step op).head = s.tree.head
    · have hcopy : head_copy (s.tree.step op) = head_copy s.tree := head_copy_step hc hhead
      exact { coherent := htree, distinct := hd', story := ⟨c, hcopy ▸ hst, ht⟩, quiet := hs.quiet }
    · have hsync : s.bridge_synced = false := by simpa [hhead] using h
      obtain ⟨hempty, hnone⟩ := hs.quiet hsync
      have hdone : Story layout_n (head_copy (s.tree.step op)) (head_copy (s.tree.step op)) (s.wire ++ s.chan) :=
        hempty ▸ .done
      exact { coherent := htree, distinct := hd', story := ⟨_, hdone, .inl hnone⟩, quiet := hs.quiet }

theorem InSync.read (hs : s.InSync layout_n genesis_w params) : (s.step layout_n .read).InSync layout_n genesis_w params := by
  obtain ⟨c, hst, ht⟩ := hs.story
  simp only [Session.step]
  split
  · exact hs
  · next m wire hwire =>
    rw [hwire, List.cons_append] at hst
    have hsync : s.bridge_synced ≠ false := fun h => by simpa [hwire] using (hs.quiet h).1
    split
    · next tr ask hr =>
      obtain ⟨c', hst', ht'⟩ := ht.receive hst hr
      exact { hs with story := ⟨c', hst', ht'⟩, quiet := fun h => absurd h hsync }
    · -- the process ends with what it had read
      obtain ⟨c', hst'⟩ := Story.suffix (q := m :: wire) hst
      exact { hs with story := ⟨c', hst', .inl rfl⟩, quiet := fun h => absurd h hsync }

theorem InSync.reconnect (hs : s.InSync layout_n genesis_w params) (lost : Bool) :
    (s.step layout_n (.reconnect lost)).InSync layout_n genesis_w params := by
  obtain ⟨c, hst, -⟩ := hs.story
  obtain ⟨c', hst'⟩ := hst.suffix
  have hquiet (h : s.bridge_synced = false) : s.chan = [] := (List.append_eq_nil_iff.mp (hs.quiet h).1).2
  cases lost with
  | false => exact { hs with story := ⟨c', hst', .inl rfl⟩, quiet := fun h => ⟨hquiet h, rfl⟩ }
  | true =>
    obtain ⟨c', hst'⟩ := hst'.tail
    exact { hs with story := ⟨c', hst', .inl rfl⟩, quiet := fun h => ⟨congrArg List.tail (hquiet h), rfl⟩ }

/-- Every event keeps the story, if a move of the head is made well. -/
theorem InSync.step (hs : s.InSync layout_n genesis_w params) {e : Event} (hf : s.Fine layout_n e) :
    (s.step layout_n e).InSync layout_n genesis_w params := by
  cases e with
  | call op => exact hs.call hf
  | request_train =>
    simp only [Session.step]
    split
    · next h => exact hs.send_one h (.request (.inl rfl) (fun _ => rfl) .done)
    · exact hs
  | request_evals =>
    simp only [Session.step]
    split
    · next h => exact hs.send_one h (.request (.inr rfl) (fun _ => rfl) .done)
    · exact hs
  | request_generate =>
    simp only [Session.step]
    split
    · next h => exact hs.send_one h (.generate .done)
    · exact hs
  | handle_ask =>
    simp only [Session.step]
    split
    · exact hs
    · exact InSync.send_bridge_state { hs with }
  | write =>
    simp only [Session.step]
    split
    · exact hs
    · next m chan hchan =>
      have hq : (s.wire ++ [m]) ++ chan = s.wire ++ s.chan := by rw [hchan, List.append_assoc]; rfl
      exact { hs with story := hq ▸ hs.story, quiet := hq ▸ hs.quiet }
  | read => exact hs.read
  | reconnect lost => exact hs.reconnect lost

theorem InSync.run (hs : s.InSync layout_n genesis_w params) {es : List Event} (hf : s.FineRun layout_n es) :
    (s.run layout_n es).InSync layout_n genesis_w params := by
  induction es generalizing s with
  | nil => exact hs
  | cons e es ih => exact ih (hs.step hf.1) hf.2

theorem inSync_new (hw : genesis_w.length = (ModelState.genesis params.spec).dim) (dc : Option String) :
    (Session.new (BlockTree.new genesis_w dc params)).InSync layout_n genesis_w params where
  coherent := ⟨_, _, coherent_new hw dc⟩
  distinct h r hr := by simp [Session.new, BlockTree.new] at hr
  story := ⟨_, .done, .inl rfl⟩
  quiet _ := ⟨rfl, rfl⟩

end Session

/-- As long as every move of the head is made well, what runs for the height of the head runs on its state. -/
theorem trainer_in_sync (layout_n : List UInt64 → Option Nat) (genesis_w : List Int64) (dc : Option String)
    (params : GenesisParams) (hw : genesis_w.length = (ModelState.genesis params.spec).dim) (es : List Event)
    (hf : (Session.new (BlockTree.new genesis_w dc params)).FineRun layout_n es) (m : ToBridge)
    (wire : List ToBridge) (w : List Int64) :
    let s := (Session.new (BlockTree.new genesis_w dc params)).run layout_n es
    s.wire = m :: wire → s.trainer.height = (head_height s.tree).toNat → s.trainer.runs_on m = some w →
    w = s.tree.head_state := by
  intro s hwire hh hr
  obtain ⟨c, hst, ht⟩ := ((Session.inSync_new hw dc).run hf).story
  rw [show ((Session.new (BlockTree.new genesis_w dc params)).run layout_n es).wire = m :: wire from hwire] at hst
  exact ht.runs_on hst hr hh

end Node

/-! ## Runs that send and runs that drop -/

section Runs

variable [Crypto] {t : BlockTree} {p : BlockTree.Parent} {known : List String} {staged : Staged}

theorem step_extends (h : Tip t p known) {b : Block} {work : UInt64} (hnew : b.hash ∉ known)
    (hprev : b.header.prev_hash = t.head) (hv : ∀ jurors, t.validate_at_base b { p with jurors } = .ok staged)
    (hwork : saturating_add p.work (max b.header.work 1) = work) :
    t.step (.add_block b) = t.commit_staged b.hash b.header staged work := by
  simp only [BlockTree.step]
  rw [h.add_block hnew hprev hv, hwork]

omit [Crypto] in
theorem head_messages_extends (h : Tip t p known) (bh : String) {header : Header} (work : UInt64)
    (hprev : header.prev_hash = t.head) (hinit : staged.init_pages = []) :
    let t' := t.commit_staged bh header staged work
    head_messages t' t.head = [.Advance header.height t.head_state.length staged.agg.toList] ∧
    head_height t' = header.height ∧ t'.head_state = apply_redo t.head_state staged.agg.toList ∧ t'.head = bh := by
  simp only
  rw [h.commit_eq]
  simp [head_messages, head_height, BlockTree.head_state, BlockTree.record, hprev, hinit, length_apply_redo]

namespace Session

/-- The trainer of a dense preset connects and is sent the head's state. -/
def connect : List Event := [.reconnect false, .handle_ask, .write, .read]

def holding (t : BlockTree) (chan wire : List ToBridge) (state : List Int64) (height : UInt64) (epl : List UInt64) : Session :=
  { tree := t, bridge_synced := true, chan, wire, asks := 0
    trainer := { model := some epl, state := some state, height := height.toNat } }

theorem run_append (s : Session) (es es' : List Event) :
    s.run layout_n (es ++ es') = (s.run layout_n es).run layout_n es' := List.foldl_append

theorem run_cons (s : Session) (e : Event) (es : List Event) :
    s.run layout_n (e :: es) = (s.step layout_n e).run layout_n es := rfl

theorem run_call (s : Session) (op : Op) : s.run layout_n [.call op] = s.call op := rfl

theorem run_connect (t : BlockTree) : (new t).run (fun _ => none) connect =
    holding t [] [] t.head_state (head_height t) (expert_counts t.params.spec.n_layers (head_pages t)) := rfl

variable {chan wire : List ToBridge} {state : List Int64} {height : UInt64} {epl : List UInt64}

theorem run_evals {k : Nat} (hk : chan.length + k ≤ CAPACITY) :
    (holding t chan wire state height epl).run layout_n (List.replicate k .request_evals) =
      holding t (chan ++ List.replicate k (.Eval (head_height t))) wire state height epl := by
  induction k generalizing chan with
  | zero => simp [run]
  | succ k ih =>
    have hstep : (holding t chan wire state height epl).step layout_n .request_evals =
        holding t (chan ++ [.Eval (head_height t)]) wire state height epl := by
      simp [step, holding, send_all, try_send, show chan.length < CAPACITY by omega]
    rw [List.replicate_succ, run_cons, hstep, ih (by simp; omega), List.append_assoc]
    rfl

theorem run_writes (ms : List ToBridge) :
    (holding t ms wire state height epl).run layout_n (List.replicate ms.length .write) =
      holding t [] (wire ++ ms) state height epl := by
  induction ms generalizing wire with
  | nil => simp [run]
  | cons m ms ih =>
    have hstep : (holding t (m :: ms) wire state height epl).step layout_n .write =
        holding t ms (wire ++ [m]) state height epl := rfl
    rw [List.length_cons, List.replicate_succ, run_cons, hstep, ih, List.append_assoc]
    rfl

theorem run_write_all (n : Nat) (m : ToBridge) :
    (holding t (List.replicate n m) wire state height epl).run layout_n (List.replicate n .write) =
      holding t [] (wire ++ List.replicate n m) state height epl := by
  have h := @run_writes layout_n _ t wire state height epl (List.replicate n m)
  rwa [List.length_replicate] at h

theorem run_reads (h : UInt64) (k : Nat) :
    (holding t chan (List.replicate k (.Eval h)) state height epl).run layout_n (List.replicate k .read) =
      holding t chan [] state height epl := by
  induction k with
  | zero => rfl
  | succ k ih => exact ih

theorem call_full {op : Op} (hfull : CAPACITY ≤ chan.length) {m : ToBridge}
    (hm : head_messages (t.step op) t.head = [m]) :
    (holding t chan wire state height epl).call op = holding (t.step op) chan wire state height epl := by
  simp [call, holding, hm, send_all, try_send, Nat.not_lt.mpr hfull]

theorem call_sent {op : Op} {m : ToBridge} (hhead : (t.step op).head ≠ t.head)
    (hm : head_messages (t.step op) t.head = [m]) :
    (holding t [] wire state height epl).call op = holding (t.step op) [m] wire state height epl := by
  simp [call, holding, hm, hhead, send_all, try_send, CAPACITY]

omit [Crypto] in
theorem zipWith_zeros (w : List Int64) : List.zipWith (· + ·) w (List.replicate w.length 0) = w := by
  induction w with
  | nil => rfl
  | cons x w ih => simp [List.replicate_succ, ih]

/-- An empty difference moves the height and nothing else. -/
theorem run_nothing (h : UInt64) :
    (holding t [.Advance h state.length []] [] state height epl).run layout_n [.write, .read] =
      holding t [] [] state h epl := by
  simp [run, step, holding, Trainer.receive, Trainer.advance, sparse_dense, zipWith_zeros]

theorem run_train :
    (holding t [] [] state height epl).run layout_n [.request_train, .write] =
      holding t [] [.Train (head_height t)] state height epl := by
  simp [run, step, holding, send_all, try_send, CAPACITY]

/-- Sixteen requests fill the channel when the head moves; the trainer reads them before it moves again. -/
def dropping (op op' : Op) : List Event :=
  connect ++ List.replicate CAPACITY .request_evals ++ [.call op] ++ List.replicate CAPACITY .write ++
    List.replicate CAPACITY .read ++ [.call op'] ++ [.write, .read] ++ [.request_train, .write]

theorem run_dropping {t₀ t₁ t₂ : BlockTree} {op op' : Op} (h₁ : t₀.step op = t₁) (h₂ : t₁.step op' = t₂)
    (hhead : t₂.head ≠ t₁.head) {m : ToBridge} (hm₁ : head_messages t₁ t₀.head = [m])
    (hm₂ : head_messages t₂ t₁.head = [.Advance (head_height t₂) t₀.head_state.length []]) :
    (new t₀).run (fun _ => none) (dropping op op') =
      holding t₂ [] [.Train (head_height t₂)] t₀.head_state (head_height t₂)
        (expert_counts t₀.params.spec.n_layers (head_pages t₀)) := by
  subst h₁ h₂
  simp only [dropping, run_append, run_connect]
  rw [run_evals (by decide), List.nil_append]
  rw [run_call _ op, call_full (by simp) hm₁, run_write_all, List.nil_append, run_reads]
  rw [run_call _ op', call_sent hhead hm₂, run_nothing, run_train]

end Session

end Runs

end Sestrian.bridge

open scoped Sestrian.Toy

namespace Sestrian.Toy

open BlockTree Check bridge

theorem adding_claimants : claimants_of one_draft [adding_body.coords] 0 = [[(0, 1)]] := by decide +kernel

theorem adding_columns : ((touched_columns [[(0, 1)]] 0 1).toList.foldl add_mean ∅).toList = [(0, 1)] := by decide +kernel

theorem adding_agg : adding_staged.agg.toList = [(0, 1)] := by
  have hspans : owned_parent.model.spans = [(0, 1)] := by decide +kernel
  have hagg : adding_staged.agg = (touched_columns [[(0, 1)]] 0 1).toList.foldl add_mean ∅ := by
    unfold adding_staged delta_staged
    simp only [hspans, page_aggregate, List.zipIdx_cons, List.zipIdx_nil, List.foldl_cons, List.foldl_nil,
      aggregate_page, adding_claimants]
  rw [hagg, adding_columns]

theorem adding_quiet : (fold_block one_draft owned_parent.model owned.params).2 = [] := by decide +kernel

theorem adding_init : adding_staged.init_pages = [] := by
  unfold adding_staged delta_staged
  simp only [adding_quiet]
  rfl

/-- The tree and the entries after the block that adds one. -/
def added : BlockTree := owned.commit_staged adding_block.hash adding_block.header adding_staged 1

def added_parent : Parent :=
  { model := adding_staged.post_model, ledger := adding_staged.led, height := 1, work := 1, jurors := ∅ }

/-- An empty block on top. -/
def idle_block : Block := block_by added added_parent adding_block.hash (key 7)

def idle_staged : Staged := empty_staged added added_parent idle_block

def idled : BlockTree := added.commit_staged idle_block.hash idle_block.header idle_staged 2

theorem idle_hash : idle_block.hash ∉ [adding_block.hash, owned.head] ∧ adding_block.hash ∉ [owned.head] := by
  decide +kernel

theorem idle_quiet : (fold_block idle_block added_parent.model added.params).2 = [] := by decide +kernel

theorem idle_init : idle_staged.init_pages = [] := by
  unfold idle_staged empty_staged
  simp only [idle_quiet]
  rfl

theorem adding_work : saturating_add owned_parent.work (max adding_block.header.work 1) = 1 := by
  have hwork : adding_block.header.work = 1 := by
    unfold adding_block full_block seal_delta one_draft
    exact attempt_work_last _
  rw [hwork]
  rfl

theorem adding_prev : adding_block.header.prev_hash = owned.head := by
  unfold adding_block full_block seal_delta one_draft
  rfl

theorem adding_valid (jurors : StrSet) :
    owned.validate_at_base adding_block { owned_parent with jurors } = .ok adding_staged :=
  validate_delta_jurors jurors one_ready one_body_rules

theorem added_step : owned.step (.add_block adding_block) = added := by
  unfold added
  exact step_extends owned_tip idle_hash.2 adding_prev adding_valid adding_work

theorem added_tip : Tip added added_parent [adding_block.hash, owned.head] := by
  have htip := @Tip.commit _ _ _ _ adding_block adding_staged owned_tip 1
  unfold added added_parent
  exact htip

theorem adding_height : adding_block.header.height = 1 := by
  unfold adding_block full_block seal_delta one_draft
  rfl

theorem added_messages : head_messages added owned.head = [.Advance 1 1 [(0, 1)]] ∧ head_height added = 1 ∧
    added.head_state = [6] ∧ added.head = adding_block.hash := by
  have h := head_messages_extends owned_tip adding_block.hash 1 adding_prev adding_init
  rw [adding_agg, adding_height] at h
  unfold added
  exact h

theorem idle_prev : idle_block.header.prev_hash = added.head := by
  rw [added_messages.2.2.2]
  unfold idle_block
  rfl

theorem idle_height : idle_block.header.height = 2 := by
  unfold idle_block
  rfl

theorem idle_work : saturating_add added_parent.work (max idle_block.header.work 1) = 2 := by
  have hwork : idle_block.header.work = 1 := by
    unfold idle_block
    exact block_by_work _ _ _ _
  rw [hwork]
  rfl

theorem idle_valid (jurors : StrSet) :
    added.validate_at_base idle_block { added_parent with jurors } = .ok idle_staged := by
  unfold idle_staged idle_block
  exact block_by_jurors added added_parent adding_block.hash (key 7) jurors

theorem idled_step : added.step (.add_block idle_block) = idled := by
  unfold idled
  exact step_extends added_tip idle_hash.1 idle_prev idle_valid idle_work

theorem idled_messages : head_messages idled added.head = [.Advance 2 1 []] ∧ head_height idled = 2 ∧
    idled.head_state = [6] ∧ idled.head = idle_block.hash := by
  have h := head_messages_extends added_tip idle_block.hash 2 idle_prev idle_init
  rw [added_messages.2.2.1, idle_height] at h
  unfold idled
  exact h

end Sestrian.Toy

namespace Sestrian.bridge

open Toy

/-- The head moves once and nothing is dropped. -/
def advancing (op : Op) : List Event :=
  Session.connect ++ [.call op] ++ [.write, .read] ++ [.request_train, .write]

theorem fine_advancing {t : BlockTree} {op : Op} {h : UInt64} {dim : Nat} {coords : List (UInt32 × Int64)}
    (hm : head_messages (t.step op) t.head = [.Advance h dim coords]) :
    (Session.new t).FineRun (fun _ => none) (advancing op) := by
  have hcall : (Session.holding t [] [] t.head_state (head_height t)
      (expert_counts t.params.spec.n_layers (head_pages t))).Fine (fun _ => none) (.call op) := by
    intro _ _
    refine ⟨?_, ⟨List.not_mem_nil, List.not_mem_nil⟩, fun g d l i hg => ?_⟩
    · change ([] : List ToBridge).length + (head_messages (t.step op) t.head).length ≤ CAPACITY
      rw [hm]
      simp [CAPACITY]
    · change .Grow g d l i ∈ head_messages (t.step op) t.head at hg
      rw [hm] at hg
      simp at hg
  exact ⟨trivial, trivial, trivial, trivial, hcall, trivial, trivial, trivial, trivial, trivial⟩

theorem run_adding (t : BlockTree) (height : UInt64) (epl : List UInt64) :
    (Session.holding t [.Advance 1 1 [(0, 1)]] [] [5] height epl).run (fun _ => none) [.write, .read] =
      Session.holding t [] [] [6] 1 epl := rfl

theorem run_advancing {t t' : BlockTree} {op : Op} (hstep : t.step op = t') (hhead : t'.head ≠ t.head)
    (hm : head_messages t' t.head = [.Advance 1 1 [(0, 1)]]) (hstate : t.head_state = [5])
    (hheight : head_height t' = 1) :
    (Session.new t).run (fun _ => none) (advancing op) =
      Session.holding t' [] [.Train 1] [6] 1 (expert_counts t.params.spec.n_layers (head_pages t)) := by
  subst hstep
  have hsent : (Session.holding t [] [] t.head_state (head_height t)
      (expert_counts t.params.spec.n_layers (head_pages t))).call op = Session.holding (t.step op)
        [.Advance 1 1 [(0, 1)]] [] t.head_state (head_height t) (expert_counts t.params.spec.n_layers (head_pages t)) :=
    Session.call_sent hhead hm
  simp only [advancing, Session.run_append, Session.run_connect, Session.run_call]
  rw [hsent, hstate, run_adding, Session.run_train, hheight]

theorem runs_on_head {s : Session} {t : BlockTree} {epl : List UInt64} (hs : s = Session.holding t [] [.Train 1] [6] 1 epl)
    (hheight : head_height t = 1)
    (hsync : ∀ m wire w, s.wire = m :: wire → s.trainer.height = (head_height s.tree).toNat →
      s.trainer.runs_on m = some w → w = s.tree.head_state) :
    s.trainer.runs_on (.Train 1) = some [6] ∧ [6] = s.tree.head_state := by
  subst hs
  have hheights : (Session.holding t [] [.Train 1] [6] 1 epl).trainer.height = (head_height t).toNat := by
    rw [hheight]
    rfl
  exact ⟨rfl, hsync (.Train 1) [] [6] rfl hheights rfl⟩

theorem trainer_in_sync_advance :
    let s := (Session.new owned).run (fun _ => none) (advancing (.add_block adding_block))
    s.trainer.runs_on (.Train 1) = some [6] ∧ [6] = s.tree.head_state := by
  have hhead : added.head ≠ owned.head := by
    rw [added_messages.2.2.2]
    exact List.ne_of_not_mem_cons idle_hash.2
  have hmsg : head_messages (owned.step (.add_block adding_block)) owned.head = [.Advance 1 1 [(0, 1)]] := by
    rw [added_step]
    exact added_messages.1
  have hrun := run_advancing added_step hhead added_messages.1 rfl added_messages.2.1
  have hfine := fine_advancing hmsg
  have howned : owned = BlockTree.new [5] (some "owner") params := by
    unfold owned
    rfl
  refine runs_on_head hrun added_messages.2.1 ?_
  rw [howned] at hfine ⊢
  exact trainer_in_sync (fun _ => none) [5] (some "owner") params rfl (advancing (.add_block adding_block)) hfine

theorem trainer_out_of_sync :
    let s := (Session.new owned).run (fun _ => none) (Session.dropping (.add_block adding_block) (.add_block idle_block))
    s.wire = [.Train 2] ∧ s.trainer.height = (head_height s.tree).toNat ∧ s.trainer.runs_on (.Train 2) = some [5] ∧
    s.tree.head_state = [6] := by
  have hhead : idled.head ≠ added.head := by
    rw [idled_messages.2.2.2, added_messages.2.2.2]
    exact List.ne_of_not_mem_cons idle_hash.1
  have hm := idled_messages.1
  have hh := idled_messages.2.1
  have hrun := Session.run_dropping added_step idled_step hhead added_messages.1 (hh.symm ▸ hm)
  simp only [hrun]
  exact ⟨congrArg (fun h => [ToBridge.Train h]) hh, rfl, by simp [Session.holding, Trainer.runs_on, hh]; rfl,
    idled_messages.2.2.1⟩

end Sestrian.bridge
