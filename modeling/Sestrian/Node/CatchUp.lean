import Sestrian.Node.Adopt

/-!
# A lagging node catches up

The part of the peer's chain that the node knows is a prefix of it, and the node's head is either
the old one or the last block of that prefix. So a batch that starts within reach extends the
prefix, and one that starts beyond it makes the node ask from eight below its head.
-/

namespace Sestrian

open BlockTree Node

variable [Crypto]

namespace PeerChain

variable {genesis : String} {C : PeerChain genesis} {sb : StoredBlock} {i j m : ℕ} {x : String}

/-- The hash at each height. -/
def hashes (C : PeerChain genesis) : List String := genesis :: C.blocks.map StoredBlock.hash

theorem length_hashes (C : PeerChain genesis) : C.hashes.length = C.blocks.length + 1 := by
  simp [hashes]

theorem hashes_zero (C : PeerChain genesis) : C.hashes[0]? = some genesis := rfl

theorem hash_at (h : C.blocks[i]? = some sb) : C.hashes[i + 1]? = some sb.hash := by
  unfold hashes
  rw [List.getElem?_cons_succ, List.getElem?_map, h]
  rfl

theorem prev_at (h : C.blocks[i]? = some sb) : C.hashes[i]? = some sb.header.prev_hash := (C.linked i sb h).symm

theorem height_inj (h : C.hashes[i]? = some x) (h' : C.hashes[j]? = some x) : i = j := by
  obtain ⟨hlt, -⟩ := List.getElem?_eq_some_iff.mp h
  exact (List.getElem?_inj hlt C.distinct).mp (h.trans h'.symm)

theorem at_of_mem (h : sb ∈ C.blocks) : ∃ i : ℕ, C.blocks[i]? = some sb :=
  List.mem_iff_getElem?.mp h

/-- The work a later block of the chain will have when the block at height `m` has this much. -/
def work_from (C : PeerChain genesis) (w : UInt64) (m : ℕ) : UInt64 :=
  (C.blocks.drop m).foldl (fun w sb => saturating_add w (max sb.header.work 1)) w

theorem work_from_next (w : UInt64) (h : C.blocks[m]? = some sb) :
    C.work_from w m = C.work_from (saturating_add w (max sb.header.work 1)) (m + 1) := by
  obtain ⟨hlt, heq⟩ := List.getElem?_eq_some_iff.mp h
  unfold work_from
  rw [List.drop_eq_getElem_cons hlt, List.foldl_cons, heq]

theorem work_from_end (w : UInt64) : C.work_from w C.blocks.length = w := by
  unfold work_from
  rw [List.drop_length]
  rfl

/-! ## The invariant -/

def height_at (t : BlockTree) (h : String) : ℕ := ((t.blocks[h]?.map fun hd : Header => hd.height).getD 0).toNat

/-- The node knows the chain up to height `m`. Its head is the one it started with, of height `h`,
or the last block that it knows of the chain. The whole chain will outweigh the old head. -/
structure Follows (C : PeerChain genesis) (our_head : String) (h : ℕ) (s : Node) (m : ℕ) : Prop where
  known : ∀ (i : ℕ) x, C.hashes[i]? = some x → (x ∈ s.tree.blocks ↔ i ≤ m)
  top : m ≤ C.blocks.length
  root : s.tree.genesis_hash = genesis
  work : ∃ x w, C.hashes[m]? = some x ∧ s.tree.cum_work[(x : String)]? = some w ∧
    (s.tree.cum_work[our_head]?).getD 0 < C.work_from w m
  ours : our_head ∈ s.tree.blocks ∧ height_at s.tree our_head = h
  head : s.tree.head = our_head ∧ m < C.blocks.length ∨
    C.hashes[m]? = some s.tree.head ∧ height_at s.tree s.tree.head = m
  parked : ∀ (k : String) v, s.pending[k]? = some v → v.1 ∈ C.blocks ∧ k = v.1.hash
  innocent : ∀ x ∈ C.hashes, x ∉ s.tree.convicted
  modelled : ∀ x ∈ s.tree.model, x ∈ s.tree.blocks

variable {our_head : String} {h : ℕ} {s s' : Node}

theorem height_at_insert {t t' : BlockTree} {b : Block} (hc : Connects t t' b) (hx : x ∈ t.blocks) :
    height_at t' x = height_at t x := by
  unfold height_at
  rw [hc.blocks, SumMap.get_insert, if_neg]
  rintro rfl
  exact hc.fresh hx

/-- Parked blocks of the chain stay blocks of the chain. -/
theorem Follows.keep_parked (hf : C.Follows our_head h s m) (hi : Installs s s' sb) (hsb : sb ∈ C.blocks) :
    ∀ (k : String) v, s'.pending[k]? = some v → v.1 ∈ C.blocks ∧ k = v.1.hash := by
  intro k v hv
  rcases hi.parked k v hv with hold | ⟨rfl, rfl⟩
  · exact hf.parked k v hold
  · exact ⟨hsb, rfl⟩

theorem Follows.same (hf : C.Follows our_head h s m) (hline : SameLine s.tree s'.tree)
    (hparked : ∀ (k : String) v, s'.pending[k]? = some v → v.1 ∈ C.blocks ∧ k = v.1.hash) :
    C.Follows our_head h s' m := by
  have hheight (x : String) : height_at s'.tree x = height_at s.tree x := by
    unfold height_at
    rw [hline.blocks]
  refine ⟨?_, hf.top, hline.genesis_hash.trans hf.root, ?_, ?_, ?_, hparked, hline.convicted ▸ hf.innocent, ?_⟩
  · rw [hline.blocks]
    exact hf.known
  · rw [hline.cum_work]
    exact hf.work
  · rw [hline.blocks, hheight]
    exact hf.ours
  · rw [hline.head, hheight]
    exact hf.head
  · rw [hline.blocks, hline.model]
    exact hf.modelled

/-- The next block of the chain is connected. -/
theorem Follows.next (hf : C.Follows our_head h s m) {b : Block} (hhash : b.hash = sb.hash)
    (hheader : b.header = sb.header) (hc : Connects s.tree s'.tree b) (hsb : sb ∈ C.blocks)
    (hparked : ∀ (k : String) v, s'.pending[k]? = some v → v.1 ∈ C.blocks ∧ k = v.1.hash) :
    C.blocks[m]? = some sb ∧ C.Follows our_head h s' (m + 1) := by
  obtain ⟨i, hi⟩ := at_of_mem hsb
  have hprev := prev_at hi
  have hnext := hash_at hi
  have hfresh : sb.hash ∉ s.tree.blocks := hhash ▸ hc.fresh
  have hparent : sb.header.prev_hash ∈ s.tree.blocks := hheader ▸ hc.parent
  -- the parent is known and the block is not, so it is the one after the known prefix
  obtain rfl : i = m := by
    have hle := (hf.known i _ hprev).mp hparent
    have hgt : ¬ i + 1 ≤ m := fun hle => hfresh ((hf.known _ _ hnext).mpr hle)
    omega
  obtain ⟨hlt, -⟩ := List.getElem?_eq_some_iff.mp hi
  obtain ⟨x, w, hx, hw, hless⟩ := hf.work
  obtain rfl : x = sb.header.prev_hash := Option.some.inj (hx.symm.trans hprev)
  obtain ⟨w', hw', hcum, hhead⟩ := hc.work
  rw [hheader, hw] at hw'
  obtain rfl := Option.some.inj hw'
  rw [hheader] at hcum hhead
  rw [hhash] at hcum hhead
  have hours : sb.hash ≠ our_head := fun he => hfresh (he ▸ hf.ours.1)
  have hwork : s'.tree.cum_work[our_head]? = s.tree.cum_work[our_head]? := by
    rw [hcum, SumMap.get_insert, if_neg hours]
  have htall : height_at s'.tree sb.hash = i + 1 := by
    unfold height_at
    rw [hc.blocks, hhash, hheader, SumMap.get_insert, if_pos rfl]
    exact C.height i sb hi
  refine ⟨hi, ?_, hlt, hc.genesis_hash.trans hf.root, ?_, ?_, ?_, hparked, hc.convicted ▸ hf.innocent, ?_⟩
  · intro j x hj
    rw [hc.blocks, hhash, mem_insert_iff, hf.known j x hj]
    constructor
    · rintro (rfl | hle)
      · rw [height_inj hj hnext]
      · omega
    · intro hle
      rcases Nat.lt_or_eq_of_le hle with hlt' | rfl
      · exact .inr (by omega)
      · exact .inl (Option.some.inj (hj.symm.trans hnext))
  · refine ⟨sb.hash, saturating_add w (max sb.header.work 1), hnext, ?_, ?_⟩
    · rw [hcum, SumMap.get_insert, if_pos rfl]
    · rw [hwork, ← work_from_next w hi]
      exact hless
  · rw [height_at_insert hc hf.ours.1, hc.blocks]
    exact ⟨(mem_insert_iff ..).mpr (.inr hf.ours.1), hf.ours.2⟩
  · rcases hf.head with ⟨hold, -⟩ | ⟨htop, -⟩
    · split at hhead
      · rw [hhead]
        exact .inr ⟨hnext, htall⟩
      · next hout =>
        refine .inl ⟨hhead.trans hold, ?_⟩
        -- the last block of the chain would have outweighed the old head
        by_contra hend
        have hlast : C.blocks.length = i + 1 := by omega
        rw [work_from_next w hi, ← hlast, work_from_end] at hless
        refine hout (.inr ?_)
        unfold outweighs
        rw [hold]
        simp [hless]
    · have hextends : sb.header.prev_hash = s.tree.head := Option.some.inj (hprev.symm.trans htop)
      rw [if_pos (.inl hextends)] at hhead
      rw [hhead]
      exact .inr ⟨hnext, htall⟩
  · obtain ⟨model, hmodel⟩ := hc.model
    intro x hx
    rw [hmodel, mem_insert_iff] at hx
    rw [hc.blocks, mem_insert_iff]
    exact hx.imp_right (hf.modelled x)

/-! ## One response -/

/-- The known prefix after some steps, and who may be parked then. -/
structure Grows (C : PeerChain genesis) (our_head : String) (h : ℕ) (s s' : Node) (m m' : ℕ) (new : List String) : Prop where
  le : m ≤ m'
  follows : C.Follows our_head h s' m'
  size : s'.tree.blocks.size = s.tree.blocks.size + (m' - m)
  parked : ∀ k ∈ s'.pending, k ∈ s.pending ∨ k ∈ new
  head : m' = m → s'.tree.head = s.tree.head

theorem Grows.trans {s'' : Node} {m' m'' : ℕ} {new new' : List String} (hg : C.Grows our_head h s s' m m' new)
    (hg' : C.Grows our_head h s' s'' m' m'' new') : C.Grows our_head h s s'' m m'' (new ++ new') := by
  have hle := hg.le
  have hle' := hg'.le
  refine ⟨hle.trans hle', hg'.follows, ?_, fun k hk => ?_, fun he => ?_⟩
  · rw [hg'.size, hg.size]
    omega
  · rw [List.mem_append]
    rcases hg'.parked k hk with hold | hnew
    · exact (hg.parked k hold).imp_right .inl
    · exact .inr (.inr hnew)
  · exact (hg'.head (by omega)).trans (hg.head (by omega))

theorem Grows.refl (hf : C.Follows our_head h s m) (new : List String) : C.Grows our_head h s s m m new :=
  ⟨le_rfl, hf, by omega, fun _ hk => .inl hk, fun _ => rfl⟩

/-- One block of the chain is offered. -/
theorem Follows.offer (hf : C.Follows our_head h s m) (hi : Installs s s' sb) (hsb : C.blocks[i]? = some sb) :
    ∃ m', C.Grows our_head h s s' m m' [sb.hash] ∧ (m' = m ∨ i = m ∧ m' = m + 1) := by
  have hmem := List.mem_of_getElem? hsb
  have hparked := hf.keep_parked hi hmem
  have hkeys : ∀ k ∈ s'.pending, k ∈ s.pending ∨ k ∈ [sb.hash] := by
    intro k hk
    obtain ⟨v, hv⟩ := Option.isSome_iff_exists.mp (Std.ExtTreeMap.mem_iff_isSome_getElem?.mp hk)
    rcases hi.parked k v hv with hold | ⟨rfl, -⟩
    · exact .inl (Std.ExtTreeMap.mem_iff_isSome_getElem?.mpr (by rw [hold]; rfl))
    · exact .inr (List.mem_singleton_self _)
  rcases hi.line with hline | ⟨b, hhash, hheader, hc⟩
  · refine ⟨m, ⟨le_rfl, hf.same hline hparked, ?_, hkeys, fun _ => hline.head⟩, .inl rfl⟩
    rw [hline.blocks]
    omega
  · obtain ⟨hat, hnext⟩ := hf.next hhash hheader hc hmem hparked
    have hfresh := hc.fresh
    refine ⟨m + 1, ⟨Nat.le_succ m, hnext, ?_, hkeys, fun he => absurd he (Nat.succ_ne_self m)⟩, .inr ⟨?_, rfl⟩⟩
    · rw [hc.blocks, Std.ExtTreeMap.size_insert, if_neg (by rwa [Std.ExtTreeMap.contains_iff_mem])]
      omega
    · have hind := height_inj (hash_at hsb) (hash_at hat)
      omega

variable [Serde] {env : Env} {peer : PeerId}

/-- Each block of a batch can be taken when its turn comes. -/
def TakesAll (env : Env) (peer : PeerId) : Node → List StoredBlock → Prop
  | _, [] => True
  | s, sb :: blocks => s.Takes sb ∧ TakesAll env peer (s.install env sb (some peer)).2 blocks

/-- A batch that starts within reach is taken as a whole, and one beyond it not at all. -/
theorem Follows.batch {blocks : List StoredBlock} (hf : C.Follows our_head h s m)
    (hat : ∀ (j : ℕ) sb, blocks[j]? = some sb → C.blocks[i + j]? = some sb) (ht : TakesAll env peer s blocks) :
    ∃ m', C.Grows our_head h s (blocks.foldl (fun s sb => (s.install env sb (some peer)).2) s) m m'
      (blocks.map StoredBlock.hash) ∧ (i ≤ m → i + blocks.length ≤ m') ∧ (m < i → m' = m) := by
  induction blocks generalizing s m i with
  | nil =>
    refine ⟨m, .refl hf _, ?_, fun _ => rfl⟩
    simp
  | cons sb blocks ih =>
    obtain ⟨htakes, hrest⟩ := ht
    have hsb : C.blocks[i]? = some sb := hat 0 sb rfl
    obtain ⟨m₁, hg₁, hstep⟩ := hf.offer (install_installs s sb (some peer)) hsb
    have hat' (j : ℕ) (sb' : StoredBlock) (hj : blocks[j]? = some sb') : C.blocks[i + 1 + j]? = some sb' := by
      rw [Nat.add_assoc, Nat.add_comm 1]
      exact hat (j + 1) sb' hj
    obtain ⟨m', hg, hnear, hfar⟩ := ih hg₁.follows hat' hrest
    refine ⟨m', hg₁.trans hg, fun hle => ?_, fun hlt => ?_⟩
    · -- the parent is known, so this block is known after its turn
      have hparent := (hf.known i _ (prev_at hsb)).mpr hle
      have hmem := install_takes env s sb (some peer) htakes hparent
      have hreach := (hg₁.follows.known _ _ (hash_at hsb)).mp hmem
      have := hnear hreach
      rw [List.length_cons]
      omega
    · obtain rfl : m₁ = m := by omega
      exact hfar (by omega)

/-- A parked block is offered again. -/
theorem Follows.retry_one (env : Env) (hf : C.Follows our_head h s m) (k : String) :
    ∃ m', C.Grows our_head h s (s.retry_one env k) m m' [] ∧ (m' = m ∨ C.hashes[m + 1]? = some k) := by
  unfold Node.retry_one
  split
  · next sb source hk =>
    obtain ⟨hsb, rfl⟩ := hf.parked k _ hk
    obtain ⟨i, hi⟩ := at_of_mem hsb
    have hwas : sb.hash ∈ s.pending := Std.ExtTreeMap.mem_iff_isSome_getElem?.mpr (by rw [hk]; rfl)
    have herase : Aside s { s with pending := s.pending.erase sb.hash, pending_at := s.pending_at.erase sb.hash } :=
      .of_erase sb.hash rfl rfl
    obtain ⟨m', hg, hstep⟩ := hf.offer (.before herase (install_installs _ sb (some source))) hi
    refine ⟨m', ⟨hg.le, hg.follows, hg.size, fun k hk => ?_, hg.head⟩, ?_⟩
    swap
    · rcases hstep with hsame | ⟨rfl, -⟩
      · exact .inl hsame
      · exact .inr (hash_at hi)
    rcases hg.parked k hk with hold | hnew
    · exact .inl hold
    · rw [List.mem_singleton.mp hnew]
      exact .inl hwas
  · exact ⟨m, .refl hf [], .inl rfl⟩

omit [Serde] in
theorem mem_ready {k : String} (hk : k ∈ s.ready_blocks env) : k ∈ s.pending := by
  obtain ⟨-, hk⟩ := List.mem_filter.mp hk
  by_contra hout
  rw [Std.ExtTreeMap.getElem?_eq_none hout] at hk
  cases hk

/-- The parked blocks are offered again. That is of use only if the next block is among them. -/
theorem Follows.retry (env : Env) (hf : C.Follows our_head h s m) :
    ∃ m', C.Grows our_head h s (s.retry_pending env) m m' [] ∧
      ((∀ x, C.hashes[m + 1]? = some x → x ∉ s.pending) → m' = m) := by
  suffices ∀ ready : List String, ∃ m', C.Grows our_head h s (ready.foldl (Node.retry_one env) s) m m' [] ∧
      ((∀ x, C.hashes[m + 1]? = some x → x ∉ ready) → m' = m) by
    obtain ⟨m', hg, hidle⟩ := this (s.ready_blocks env)
    exact ⟨m', hg, fun hout => hidle fun x hx hin => hout x hx (mem_ready hin)⟩
  intro ready
  induction ready generalizing s m with
  | nil => exact ⟨m, .refl hf [], fun _ => rfl⟩
  | cons k ready ih =>
    obtain ⟨m₁, hg₁, hone⟩ := hf.retry_one env k
    obtain ⟨m', hg, hidle⟩ := ih hg₁.follows
    refine ⟨m', hg₁.trans hg, fun hout => ?_⟩
    obtain rfl : m₁ = m := hone.resolve_right fun hk => hout k hk List.mem_cons_self
    exact hidle fun x hx hin => hout x hx (List.mem_cons_of_mem _ hin)

/-! ## What the node asks for while it handles a batch -/

/-- Nothing, within reach. -/
theorem Follows.batch_asks_near {blocks : List StoredBlock} (hf : C.Follows our_head h s m) (hle : i ≤ m)
    (hat : ∀ (j : ℕ) sb, blocks[j]? = some sb → C.blocks[i + j]? = some sb) (ht : TakesAll env peer s blocks) :
    s.batch_asks env peer blocks = [] := by
  induction blocks generalizing s m i with
  | nil => rfl
  | cons sb blocks ih =>
    obtain ⟨htakes, hrest⟩ := ht
    have hsb : C.blocks[i]? = some sb := hat 0 sb rfl
    have hparent := (hf.known i _ (prev_at hsb)).mpr hle
    obtain ⟨m₁, hg₁, -⟩ := hf.offer (install_installs s sb (some peer)) hsb
    have hreach := (hg₁.follows.known _ _ (hash_at hsb)).mp (install_takes env s sb (some peer) htakes hparent)
    have hat' (j : ℕ) (sb' : StoredBlock) (hj : blocks[j]? = some sb') : C.blocks[i + 1 + j]? = some sb' := by
      rw [Nat.add_assoc, Nat.add_comm 1]
      exact hat (j + 1) sb' hj
    rw [batch_asks, install_ask_takes htakes hparent, ih hg₁.follows hreach hat' hrest]
    rfl

/-- Beyond reach the first block makes it ask from eight below the head. -/
theorem Follows.batch_asks_far {blocks : List StoredBlock} (hf : C.Follows our_head h s m) (hlt : m < i)
    (hat : ∀ (j : ℕ) sb, blocks[j]? = some sb → C.blocks[i + j]? = some sb) (hpos : 0 < blocks.length)
    (ht : TakesAll env peer s blocks) :
    (s.batch_asks env peer blocks).head? = some (BlockTree.saturating_sub s.head_height 8) := by
  obtain ⟨sb, blocks, rfl⟩ := List.exists_cons_of_length_pos hpos
  obtain ⟨htakes, -⟩ := ht
  have hsb : C.blocks[i]? = some sb := hat 0 sb rfl
  have hfresh : sb.hash ∉ s.tree.blocks := fun hin => by
    have := (hf.known _ _ (hash_at hsb)).mp hin
    omega
  have hunknown : sb.header.prev_hash ∉ s.tree.blocks := fun hin => by
    have := (hf.known _ _ (prev_at hsb)).mp hin
    omega
  have hhead : s.tree.head ∈ s.tree.blocks := by
    rcases hf.head with ⟨hold, -⟩ | ⟨htop, -⟩
    · exact hold ▸ hf.ours.1
    · exact (hf.known m _ htop).mpr le_rfl
  have hask := install_ask_orphan htakes hfresh (hf.innocent _ (List.mem_of_getElem? (hash_at hsb)))
    (hf.innocent _ (List.mem_of_getElem? (prev_at hsb))) (fun he => hunknown (he ▸ hhead))
    (fun hin => hunknown (hf.modelled _ hin))
  rw [batch_asks, hask]
  rfl

/-- Each parked block can be taken when its turn comes. -/
def TakesReady (env : Env) : Node → List String → Prop
  | _, [] => True
  | s, k :: ready => (∀ v, s.pending[k]? = some v → (s.unpark k).Takes v.1) ∧ TakesReady env (s.retry_one env k) ready

/-- Nothing for a parked block whose parent is known. -/
theorem Follows.retry_asks {ready : List String} (hf : C.Follows our_head h s m)
    (hready : ∀ k ∈ ready, ∃ i sb, C.blocks[i]? = some sb ∧ k = sb.hash ∧ i ≤ m) (ht : TakesReady env s ready) :
    s.retry_asks env peer ready = [] := by
  induction ready generalizing s m with
  | nil => rfl
  | cons k ready ih =>
    obtain ⟨htakes, hrest⟩ := ht
    obtain ⟨m₁, hg₁, -⟩ := hf.retry_one env k
    have hready' : ∀ k ∈ ready, ∃ i sb, C.blocks[i]? = some sb ∧ k = sb.hash ∧ i ≤ m₁ := by
      intro k hk
      obtain ⟨i, sb, hsb, hkey, hle⟩ := hready k (List.mem_cons_of_mem _ hk)
      exact ⟨i, sb, hsb, hkey, hle.trans hg₁.le⟩
    rw [Node.retry_asks, ih hg₁.follows hready' hrest, List.append_nil]
    split
    · next sb source hk =>
      obtain ⟨hsb, hkey⟩ := hf.parked k _ hk
      obtain ⟨j, hj⟩ := at_of_mem hsb
      obtain ⟨i, sb', hi, hkey', hle⟩ := hready k List.mem_cons_self
      have hsame : j + 1 = i + 1 := height_inj (hash_at hj) ((hkey.symm.trans hkey') ▸ hash_at hi)
      have hparent : sb.header.prev_hash ∈ s.tree.blocks := (hf.known j _ (prev_at hj)).mpr (by omega)
      rw [install_ask_takes (htakes _ hk) hparent]
      split <;> rfl
    · rfl

/-- Every block of the response, and every parked block that can be retried then, can be taken. -/
def TakesSync (env : Env) (peer : PeerId) (s : Node) (blocks : List StoredBlock) (payloads : List (String × Payload)) :
    Prop :=
  let s := payloads.foldl keep_payload s
  let taken := blocks.foldl (fun s sb => (s.install env sb (some peer)).2) s
  TakesAll env peer s blocks ∧ TakesReady env taken (taken.ready_blocks env)

theorem Follows.keep_payloads (payloads : List (String × Payload)) (hf : C.Follows our_head h s m) :
    C.Follows our_head h (payloads.foldl keep_payload s) m := by
  have hkept := Aside.foldl keep_payload_aside payloads s
  exact hf.same (hkept.tree ▸ .refl _) fun k v hv => hf.parked k v (hkept.parked k v hv)

theorem Follows.sync_asks_near {blocks : List StoredBlock} {payloads : List (String × Payload)}
    (hf : C.Follows our_head h s m) (hle : i ≤ m)
    (hat : ∀ (j : ℕ) sb, blocks[j]? = some sb → C.blocks[i + j]? = some sb)
    (ht : TakesSync env peer s blocks payloads) : s.sync_asks env peer blocks payloads = [] := by
  obtain ⟨hall, hparked⟩ := ht
  have hkeep := hf.keep_payloads payloads
  obtain ⟨m₁, hg, -⟩ := hkeep.batch hat hall
  unfold Node.sync_asks
  simp only
  rw [hkeep.batch_asks_near hle hat hall, List.nil_append]
  refine hg.follows.retry_asks (fun k hk => ?_) hparked
  obtain ⟨-, hk⟩ := List.mem_filter.mp hk
  cases hv : (blocks.foldl (fun s sb => (s.install env sb (some peer)).2) (payloads.foldl keep_payload s)).pending[k]? with
  | none =>
    rw [hv] at hk
    cases hk
  | some v =>
    rw [hv] at hk
    obtain ⟨hsb, hkey⟩ := hg.follows.parked k v hv
    obtain ⟨j, hj⟩ := at_of_mem hsb
    have hready : Node.is_ready _ v.1 = true := hk
    unfold is_ready at hready
    rw [Bool.and_eq_true] at hready
    exact ⟨j, v.1, hj, hkey, (hg.follows.known j _ (prev_at hj)).mp (Std.ExtTreeMap.contains_iff_mem.mp hready.2)⟩

theorem Follows.sync_asks_far {blocks : List StoredBlock} {payloads : List (String × Payload)}
    (hf : C.Follows our_head h s m) (hlt : m < i)
    (hat : ∀ (j : ℕ) sb, blocks[j]? = some sb → C.blocks[i + j]? = some sb) (hpos : 0 < blocks.length)
    (ht : TakesSync env peer s blocks payloads) :
    (s.sync_asks env peer blocks payloads).head? = some (BlockTree.saturating_sub s.head_height 8) := by
  have hfirst := (hf.keep_payloads payloads).batch_asks_far hlt hat hpos ht.1
  have hheight : (payloads.foldl keep_payload s).head_height = s.head_height := by
    unfold head_height
    rw [(Aside.foldl keep_payload_aside payloads s).tree]
  unfold Node.sync_asks
  simp only
  rw [List.head?_append, hfirst, hheight]
  rfl

/-! ## One response, in heights -/

omit [Crypto] [Serde] in
theorem toNat_saturating_sub (a b : UInt64) : (BlockTree.saturating_sub a b).toNat = a.toNat - b.toNat := by
  unfold BlockTree.saturating_sub
  split
  · next h => exact UInt64.toNat_sub_of_le _ _ h
  · next h =>
    rw [UInt64.le_iff_toNat_le] at h
    simp only [UInt64.toNat_zero]
    omega

omit [Crypto] [Serde] in
theorem toNat_min (a b : UInt64) : (min a b).toNat = min a.toNat b.toNat := by
  have hmin : min a b = if a ≤ b then a else b := rfl
  rw [hmin]
  split
  · next h => exact (min_eq_left (UInt64.le_iff_toNat_le.mp h)).symm
  · next h =>
    rw [UInt64.le_iff_toNat_le] at h
    exact (min_eq_right (by omega)).symm

omit [Serde] in
theorem toNat_top (C : PeerChain genesis) : C.top.toNat = C.blocks.length := by
  have := C.short
  unfold top
  exact UInt64.toNat_ofNat_of_lt' (Nat.lt_of_succ_lt this)

omit [Serde] in
/-- What is served lies in the chain from the requested height on. -/
theorem serve_at {f : UInt64} {count : ℕ} (j : ℕ) (sb : StoredBlock) (h : (C.serve f count)[j]? = some sb) :
    C.blocks[f.toNat - 1 + j]? = some sb := by
  unfold serve at h
  rw [List.getElem?_take] at h
  split at h
  · rwa [List.getElem?_drop] at h
  · cases h

omit [Serde] in
theorem length_serve (f : UInt64) (count : ℕ) :
    (C.serve f count).length = min count (C.blocks.length - (f.toNat - 1)) := by
  unfold serve
  rw [List.length_take, List.length_drop]

omit [Crypto] [Serde] in
theorem lawful_max : Std.LawfulOrderMax UInt64 where
  max_eq_or a b := by
    have hmax : max a b = if a ≤ b then b else a := rfl
    rw [hmax]
    split
    · exact .inr rfl
    · exact .inl rfl
  max_le_iff a b c := by
    simp only [UInt64.le_iff_toNat_le, toNat_max]
    omega

omit [Serde] in
/-- The highest block of a batch is its last one. -/
theorem batch_top {blocks : List StoredBlock} (hat : ∀ (j : ℕ) sb, blocks[j]? = some sb → C.blocks[i + j]? = some sb)
    (hpos : 0 < blocks.length) (other : UInt64) :
    (((blocks.map fun sb => sb.header.height).max?).getD other).toNat = i + blocks.length := by
  obtain ⟨last, hlast⟩ : ∃ last, blocks[blocks.length - 1]? = some last :=
    ⟨_, List.getElem?_eq_getElem (by omega)⟩
  have hheight := C.height _ _ (hat _ _ hlast)
  have hmax : (blocks.map fun sb => sb.header.height).max? = some last.header.height := by
    have := lawful_max
    rw [List.max?_eq_some_iff]
    refine ⟨List.mem_map_of_mem (List.mem_of_getElem? hlast), fun b hb => ?_⟩
    obtain ⟨sb, hsb, rfl⟩ := List.mem_map.mp hb
    obtain ⟨j, hj⟩ := List.mem_iff_getElem?.mp hsb
    obtain ⟨hlt, -⟩ := List.getElem?_eq_some_iff.mp hj
    rw [UInt64.le_iff_toNat_le, C.height _ _ (hat j sb hj), hheight]
    omega
  rw [hmax, Option.getD_some, hheight]
  omega

variable {c : Syncing} {f : UInt64}

omit [Crypto] [Serde] in
theorem head_height_eq (s : Node) : s.head_height.toNat = height_at s.tree s.tree.head := rfl

omit [Serde] in
/-- The head is not far above the known prefix. -/
theorem Follows.head_le (hf : C.Follows our_head h s m) {bound : ℕ} (hnear : h ≤ m + bound) :
    s.head_height.toNat ≤ m + bound := by
  rw [head_height_eq]
  rcases hf.head with ⟨hold, -⟩ | ⟨-, hheight⟩
  · rw [hold, hf.ours.2]
    exact hnear
  · omega

omit [Serde] in
/-- The node stands at the peer's head exactly when its head is as high. -/
theorem Follows.done (hf : C.Follows our_head h s m) (hlong : h < C.blocks.length)
    (hle : C.top ≤ s.head_height) : C.hashes[C.blocks.length]? = some s.tree.head := by
  rw [UInt64.le_iff_toNat_le, toNat_top, head_height_eq] at hle
  rcases hf.head with ⟨hold, -⟩ | ⟨htop, hheight⟩
  · rw [hold, hf.ours.2] at hle
    omega
  · have hm := hf.top
    obtain rfl : m = C.blocks.length := by omega
    exact htop

omit [Serde] in
theorem Follows.behind (hf : C.Follows our_head h s m) (hgt : C.top > s.head_height) : m < C.blocks.length := by
  rw [gt_iff_lt, UInt64.lt_iff_toNat_lt, toNat_top, head_height_eq] at hgt
  rcases hf.head with ⟨-, hlt⟩ | ⟨-, hheight⟩
  · exact hlt
  · omega

/-- What the node itself makes of a response. Beyond reach that is nothing, if the next block is not
parked. -/
theorem Follows.absorb {blocks : List StoredBlock} {payloads : List (String × Payload)}
    (hf : C.Follows our_head h s m) (hat : ∀ (j : ℕ) sb, blocks[j]? = some sb → C.blocks[i + j]? = some sb)
    (ht : TakesAll env peer (payloads.foldl keep_payload s) blocks) :
    ∃ m', C.Grows our_head h s (s.handle_sync_batch env peer blocks payloads) m m' (blocks.map StoredBlock.hash) ∧
      (i ≤ m → i + blocks.length ≤ m') ∧
      (m < i → (∀ x, C.hashes[m + 1]? = some x → x ∉ s.pending) → m' = m) := by
  have hkept := Aside.foldl keep_payload_aside payloads s
  have hparked (k : String) (hk : k ∈ (payloads.foldl keep_payload s).pending) : k ∈ s.pending := by
    obtain ⟨v, hv⟩ := Option.isSome_iff_exists.mp (Std.ExtTreeMap.mem_iff_isSome_getElem?.mp hk)
    exact Std.ExtTreeMap.mem_iff_isSome_getElem?.mpr (by rw [hkept.parked k v hv]; rfl)
  obtain ⟨m₁, hg₁, hnear, hfar⟩ := (hf.keep_payloads payloads).batch hat ht
  obtain ⟨m', hg₂, hidle⟩ := hg₁.follows.retry env
  have hg := hg₁.trans hg₂
  rw [List.append_nil] at hg
  have hle := hg₂.le
  refine ⟨m', ?_, fun h => (hnear h).trans hle, fun hlt hout => ?_⟩
  · have hall : C.Grows our_head h s (Node.retry_pending env
        (blocks.foldl (fun s sb => (s.install env sb (some peer)).2) (payloads.foldl keep_payload s))) m m'
        (blocks.map StoredBlock.hash) :=
      ⟨hg.le, hg.follows, hkept.tree ▸ hg.size, fun k hk => (hg.parked k hk).imp_left (hparked k), hkept.tree ▸ hg.head⟩
    unfold Node.handle_sync_batch
    simp only
    split
    · exact hall
    · exact ⟨hall.le, hall.follows.same (.refl _) hall.follows.parked, hall.size, hall.parked, hall.head⟩
  · obtain rfl := hfar hlt
    refine hidle fun x hx hin => ?_
    rcases hg₁.parked x hin with hold | hnew
    · exact hout x hx (hparked x hold)
    · -- the blocks of the batch come after the next one
      obtain ⟨sb, hsb, rfl⟩ := List.mem_map.mp hnew
      obtain ⟨j, hj⟩ := List.mem_iff_getElem?.mp hsb
      have := height_inj (hash_at (hat j sb hj)) hx
      omega

/-! ## The decision -/

omit [Serde] in
/-- A batch within reach is not orphaned: the first parent is known, the others are in the batch. -/
theorem Follows.not_orphaned {blocks : List StoredBlock} (hf : C.Follows our_head h s m) (hle : i ≤ m)
    (hat : ∀ (j : ℕ) sb, blocks[j]? = some sb → C.blocks[i + j]? = some sb) :
    blocks.any (Syncing.is_orphaned s blocks) = false := by
  rw [List.any_eq_false]
  intro sb hsb
  obtain ⟨j, hj⟩ := List.mem_iff_getElem?.mp hsb
  have hprev := prev_at (hat j sb hj)
  unfold Syncing.is_orphaned
  simp only
  cases j with
  | zero =>
    have hmem := (hf.known _ _ hprev).mpr hle
    simp [hmem]
  | succ j =>
    obtain ⟨before, hbefore⟩ : ∃ before, blocks[j]? = some before := by
      obtain ⟨hlt, -⟩ := List.getElem?_eq_some_iff.mp hj
      exact ⟨_, List.getElem?_eq_getElem (by omega)⟩
    have hhash : before.hash = sb.header.prev_hash := by
      have := hash_at (hat j before hbefore)
      rw [Nat.add_assoc] at this
      exact Option.some.inj (this.symm.trans hprev)
    have hin : sb.header.prev_hash ∈ blocks.map StoredBlock.hash :=
      hhash ▸ List.mem_map_of_mem (List.mem_of_getElem? hbefore)
    simp [hin]

/-- The node after the answer. -/
def after (C : PeerChain genesis) (peer : PeerId) (c : Syncing) (f : UInt64) (a : Answer) : Node :=
  c.node.handle_sync_batch a.env peer (C.serve f a.count) a.payloads

/-! ## The gate -/

omit [Crypto] [Serde] in
/-- Of several requests the first one gets through, if none is out. -/
theorem send_all (peer : PeerId) (asks : List UInt64) (c : Syncing) :
    (asks.foldl (fun c f => c.send_sync peer f) c).node = c.node ∧
    (asks.foldl (fun c f => c.send_sync peer f) c).sync_cursor = c.sync_cursor ∧
    (asks.foldl (fun c f => c.send_sync peer f) c).sync_walkback = c.sync_walkback ∧
    (asks.foldl (fun c f => c.send_sync peer f) c).last_sync_req[peer]? = (c.last_sync_req[peer]?).or asks.head? := by
  induction asks generalizing c with
  | nil => simp
  | cons f asks ih =>
    obtain ⟨hnode, hcursor, hwalkback, hout⟩ := ih (c.send_sync peer f)
    simp only [List.foldl_cons, hnode, hcursor, hwalkback, hout, List.head?_cons]
    unfold Syncing.send_sync
    split
    · next hin =>
      obtain ⟨f', hf'⟩ := Option.isSome_iff_exists.mp
        (Std.ExtTreeMap.mem_iff_isSome_getElem?.mp (Std.ExtTreeMap.contains_iff_mem.mp hin))
      simp [hf']
    · next hout =>
      have hnone : c.last_sync_req[peer]? = none := Std.ExtTreeMap.getElem?_eq_none fun hin =>
        hout (Std.ExtTreeMap.contains_iff_mem.mpr hin)
      simp [hnone]

omit [Serde] in
theorem catch_up_frame (c : Syncing) (peer : PeerId) (known_before : ℕ) (f : UInt64) (blocks : List StoredBlock)
    (their_head : UInt64) :
    (c.catch_up peer known_before f blocks their_head).1.node = c.node ∧
      (c.catch_up peer known_before f blocks their_head).1.last_sync_req = c.last_sync_req := by
  unfold Syncing.catch_up
  simp only
  split
  · exact ⟨rfl, rfl⟩
  · split <;> exact ⟨rfl, rfl⟩

/-- The decision after the answer. -/
def decided (C : PeerChain genesis) (peer : PeerId) (c : Syncing) (f : UInt64) (a : Answer) : Syncing × Option UInt64 :=
  ({ c with last_sync_req := c.last_sync_req.erase peer, node := C.after peer c f a } : Syncing).catch_up peer
    c.node.tree.blocks.size f (C.serve f a.count) C.top

/-- What a round does. -/
theorem round_spec {a : Answer} (hout : c.last_sync_req[peer]? = some f) :
    (C.round peer c a).node = C.after peer c f a ∧
    (C.round peer c a).sync_cursor = (C.decided peer c f a).1.sync_cursor ∧
    (C.round peer c a).sync_walkback = (C.decided peer c f a).1.sync_walkback ∧
    (C.round peer c a).last_sync_req[peer]? =
      ((c.node.sync_asks a.env peer (C.serve f a.count) a.payloads).head?).or (C.decided peer c f a).2 := by
  have hframe : (C.decided peer c f a).1.node = C.after peer c f a ∧
      (C.decided peer c f a).1.last_sync_req = c.last_sync_req.erase peer := catch_up_frame _ _ _ _ _ _
  obtain ⟨hnode, hreq⟩ := hframe
  have hround : C.round peer c a =
      (c.node.sync_asks a.env peer (C.serve f a.count) a.payloads ++ (C.decided peer c f a).2.toList).foldl
        (fun c f => c.send_sync peer f) (C.decided peer c f a).1 := by
    unfold round
    rw [hout]
    rfl
  obtain ⟨hnode', hcursor, hwalkback, hout'⟩ := send_all peer
    (c.node.sync_asks a.env peer (C.serve f a.count) a.payloads ++ (C.decided peer c f a).2.toList)
    (C.decided peer c f a).1
  rw [hround]
  refine ⟨hnode'.trans hnode, hcursor, hwalkback, ?_⟩
  rw [hout', hreq, Std.ExtTreeMap.getElem?_erase_self, Option.none_or, List.head?_append]
  cases (C.decided peer c f a).2 <;> rfl

theorem decided_done {a : Answer} (h : C.top ≤ (C.after peer c f a).head_height) :
    (C.decided peer c f a).2 = none ∧ peer ∉ (C.decided peer c f a).1.sync_cursor ∧
      peer ∉ (C.decided peer c f a).1.sync_walkback := by
  unfold decided Syncing.catch_up
  simp only
  rw [if_pos (by simpa using h)]
  exact ⟨rfl, by simp [Syncing.caught_up], by simp [Syncing.caught_up]⟩

/-- While it is behind, and a batch was within reach, the node marches on. -/
theorem decided_march {a : Answer} (h : ¬ C.top ≤ (C.after peer c f a).head_height) (hserved : 0 < (C.serve f a.count).length)
    (horphaned : (C.serve f a.count).any (Syncing.is_orphaned (C.after peer c f a) (C.serve f a.count)) = false) :
    (C.decided peer c f a).2 =
      some (min ((((C.serve f a.count).map fun sb => sb.header.height).max?).getD f + 1) C.top) := by
  have hne : UInt64.ofNat (C.serve f a.count).length ≠ 0 := by
    intro he
    have hshort := C.short
    have hlen := length_serve (C := C) f a.count
    have hzero := congrArg UInt64.toNat he
    rw [UInt64.toNat_ofNat_of_lt' (by have : UInt64.size = 2 ^ 64 := rfl; omega)] at hzero
    exact absurd hzero (Nat.pos_iff_ne_zero.mp hserved)
  unfold decided Syncing.catch_up catchup_decision
  simp only [horphaned, Bool.false_and]
  rw [if_neg (by simpa using h), if_neg h, if_neg hne]
  rfl

/-! ## One round -/

/-- Where the node stands, and for what it asks: the request is within reach, or the head is so low
that the next one will be. -/
structure Tracks (C : PeerChain genesis) (our_head : String) (h : ℕ) (peer : PeerId) (c : Syncing) (f : UInt64) (m : ℕ) :
    Prop where
  follows : C.Follows our_head h c.node m
  out : c.last_sync_req[peer]? = some f
  reach : f.toNat ≤ m + 1 ∨ c.node.head_height.toNat ≤ m + 9
  asked : f.toNat ≤ C.blocks.length

/-- What is left to ask for. -/
def left (C : PeerChain genesis) (f : UInt64) (m : ℕ) : ℕ :=
  if f.toNat ≤ m + 1 then C.blocks.length - f.toNat else C.blocks.length + 1

/-- The node is at the peer's head, asks for nothing and has forgotten that it was behind. -/
structure CaughtUp (C : PeerChain genesis) (peer : PeerId) (c : Syncing) : Prop where
  head : C.hashes[C.blocks.length]? = some c.node.tree.head
  idle : c.last_sync_req[peer]? = none
  cursor : peer ∉ c.sync_cursor
  walkback : peer ∉ c.sync_walkback

/-- A round that starts within reach. -/
theorem Tracks.round_near (ht : C.Tracks our_head h peer c f m) (hlong : h < C.blocks.length) {a : Answer}
    (hcount : 0 < a.count) (hserved : TakesSync a.env peer c.node (C.serve f a.count) a.payloads)
    (hnear : f.toNat ≤ m + 1) :
    C.CaughtUp peer (C.round peer c a) ∨
      ∃ f' m', C.Tracks our_head h peer (C.round peer c a) f' m' ∧ C.left f' m' < C.left f m := by
  have hat (j : ℕ) (sb : StoredBlock) (hj : (C.serve f a.count)[j]? = some sb) : C.blocks[f.toNat - 1 + j]? = some sb :=
    serve_at j sb hj
  have hle : f.toNat - 1 ≤ m := by omega
  obtain ⟨m', hg, hreach, -⟩ := ht.follows.absorb hat hserved.1
  have hafter : C.Follows our_head h (C.after peer c f a) m' := hg.follows
  have hknown := hreach hle
  have hasked := ht.asked
  have hlen := length_serve (C := C) f a.count
  obtain ⟨hnode, hcursor, hwalkback, hout⟩ := round_spec (a := a) ht.out
  rw [ht.follows.sync_asks_near hle hat hserved, List.head?_nil, Option.none_or] at hout
  by_cases hdone : C.top ≤ (C.after peer c f a).head_height
  · obtain ⟨hnone, hcur, hwalk⟩ := decided_done hdone
    exact .inl ⟨hnode ▸ hafter.done hlong hdone, hout.trans hnone, hcursor ▸ hcur, hwalkback ▸ hwalk⟩
  · right
    have hbehind := hafter.behind (UInt64.not_le.mp hdone)
    have htop := ht.follows.top
    have hshort := C.short
    have hpos : 0 < (C.serve f a.count).length := by omega
    rw [decided_march hdone hpos (hafter.not_orphaned (hle.trans hg.le) hat)] at hout
    have hnext : (min ((((C.serve f a.count).map fun sb => sb.header.height).max?).getD f + 1) C.top).toNat =
        f.toNat - 1 + (C.serve f a.count).length + 1 := by
      rw [toNat_min, toNat_top, UInt64.toNat_add, batch_top hat hpos]
      simp only [UInt64.toNat_one]
      rw [Nat.mod_eq_of_lt (by omega)]
      omega
    refine ⟨_, m', ⟨hnode ▸ hafter, hout, .inl ?_, ?_⟩, ?_⟩
    · omega
    · omega
    · unfold left
      rw [if_pos hnear, if_pos (by omega)]
      omega

/-- A round that starts beyond reach. The next one does not. -/
theorem Tracks.round_far (ht : C.Tracks our_head h peer c f m) (hlong : h < C.blocks.length) {a : Answer}
    (hcount : 0 < a.count) (hserved : TakesSync a.env peer c.node (C.serve f a.count) a.payloads)
    (hfar : ¬ f.toNat ≤ m + 1) :
    ∃ f' m', C.Tracks our_head h peer (C.round peer c a) f' m' ∧ C.left f' m' < C.left f m := by
  have hat (j : ℕ) (sb : StoredBlock) (hj : (C.serve f a.count)[j]? = some sb) : C.blocks[f.toNat - 1 + j]? = some sb :=
    serve_at j sb hj
  have hasked := ht.asked
  have hlen := length_serve (C := C) f a.count
  have htop := ht.follows.top
  obtain ⟨m', hg, -⟩ := ht.follows.absorb hat hserved.1
  have hafter : C.Follows our_head h (C.after peer c f a) m' := hg.follows
  obtain ⟨hnode, -, -, hout⟩ := round_spec (a := a) ht.out
  rw [ht.follows.sync_asks_far (by omega) hat (by omega) hserved, Option.some_or] at hout
  have hlow : c.node.head_height.toNat ≤ m + 9 := ht.reach.resolve_left hfar
  have hhead : c.node.head_height.toNat ≤ C.blocks.length := by
    rw [head_height_eq]
    rcases ht.follows.head with ⟨hold, -⟩ | ⟨-, hheight⟩
    · rw [hold, ht.follows.ours.2]
      exact hlong.le
    · omega
  have hgrow := hg.le
  have hnext : (BlockTree.saturating_sub c.node.head_height 8).toNat = c.node.head_height.toNat - 8 :=
    toNat_saturating_sub _ _
  refine ⟨_, m', ⟨hnode ▸ hafter, hout, .inl ?_, ?_⟩, ?_⟩
  · omega
  · omega
  · unfold left
    rw [if_neg hfar, if_pos (by omega)]
    omega

/-- One round: the node has caught up, or it asks again and less is left. -/
theorem Tracks.round (ht : C.Tracks our_head h peer c f m) (hlong : h < C.blocks.length) {a : Answer}
    (hcount : 0 < a.count) (hserved : TakesSync a.env peer c.node (C.serve f a.count) a.payloads) :
    C.CaughtUp peer (C.round peer c a) ∨
      ∃ f' m', C.Tracks our_head h peer (C.round peer c a) f' m' ∧ C.left f' m' < C.left f m := by
  by_cases hnear : f.toNat ≤ m + 1
  · exact ht.round_near hlong hcount hserved hnear
  · exact .inr (ht.round_far hlong hcount hserved hnear)

/-! ## A deep fork -/

/-- The head is the old one and more than nine blocks above the known prefix, the request is beyond
reach, and the next block is not parked. -/
structure Stuck (C : PeerChain genesis) (our_head : String) (h : ℕ) (peer : PeerId) (c : Syncing) (m : ℕ) : Prop where
  follows : C.Follows our_head h c.node m
  head : c.node.tree.head = our_head
  deep : m + 9 < h
  unparked : ∀ x, C.hashes[m + 1]? = some x → x ∉ c.node.pending
  out : ∃ f : UInt64, c.last_sync_req[peer]? = some f ∧ m + 1 < f.toNat ∧ f.toNat ≤ C.blocks.length

/-- The blocks of the chain are whole: all of them can be decoded. -/
def Decodes (C : PeerChain genesis) : Prop :=
  ∀ sb ∈ C.blocks, ∀ payloads, ∃ b, sb.to_core_sparse payloads = some b

/-- A block whose parent is unknown need only be decoded. -/
theorem Follows.takes_orphan (hf : C.Follows our_head h s m) (hdec : C.Decodes) (hlt : m < i) (hsb : C.blocks[i]? = some sb) :
    s.Takes sb := by
  intro _
  obtain ⟨b, hb⟩ := hdec sb (List.mem_of_getElem? hsb) (s.preload sb.txids).payloads
  refine ⟨b, hb, fun hparent => ?_⟩
  have := (hf.known _ _ (prev_at hsb)).mp hparent
  omega

theorem Follows.takes_far {blocks : List StoredBlock} (hf : C.Follows our_head h s m) (hdec : C.Decodes) (hlt : m < i)
    (hat : ∀ (j : ℕ) sb, blocks[j]? = some sb → C.blocks[i + j]? = some sb) : TakesAll env peer s blocks := by
  induction blocks generalizing s i with
  | nil => trivial
  | cons sb blocks ih =>
    have hsb : C.blocks[i]? = some sb := hat 0 sb rfl
    obtain ⟨m₁, hg₁, hstep⟩ := hf.offer (install_installs s sb (some peer)) hsb
    obtain rfl : m₁ = m := by omega
    refine ⟨hf.takes_orphan hdec hlt hsb, ih (i := i + 1) hg₁.follows (Nat.lt_succ_of_lt hlt) fun j sb' hj => ?_⟩
    rw [Nat.add_assoc, Nat.add_comm 1]
    exact hat (j + 1) sb' hj

theorem Follows.takes_ready {ready : List String} (hf : C.Follows our_head h s m) (hdec : C.Decodes)
    (hout : ∀ x, C.hashes[m + 1]? = some x → x ∉ ready) : TakesReady env s ready := by
  induction ready generalizing s with
  | nil => trivial
  | cons k ready ih =>
    obtain ⟨m₁, hg₁, hone⟩ := hf.retry_one env k
    obtain rfl : m₁ = m := hone.resolve_right fun hk => hout k hk List.mem_cons_self
    refine ⟨fun v hv => ?_, ih hg₁.follows fun x hx hin => hout x hx (List.mem_cons_of_mem _ hin)⟩
    obtain ⟨hsb, hkey⟩ := hf.parked k v hv
    obtain ⟨j, hj⟩ := at_of_mem hsb
    have haside : Aside s (s.unpark k) := .of_erase k rfl rfl
    have hunparked : C.Follows our_head h (s.unpark k) m₁ :=
      hf.same (haside.tree ▸ .refl _) fun k v hv => hf.parked k v (haside.parked k v hv)
    rcases Nat.lt_trichotomy j m₁ with hlt | rfl | hgt
    · exact fun hfresh => absurd ((hunparked.known _ _ (hash_at hj)).mpr hlt) hfresh
    · exact absurd List.mem_cons_self (hout k (hkey ▸ hash_at hj))
    · exact hunparked.takes_orphan hdec hgt hj

/-- So nothing stands in the way of a batch beyond reach. -/
theorem Stuck.takes (hs : C.Stuck our_head h peer c m) (hdec : C.Decodes) (hf : c.last_sync_req[peer]? = some f)
    (count : ℕ) (payloads : List (String × Payload)) : TakesSync env peer c.node (C.serve f count) payloads := by
  obtain ⟨f', hout, hfar, -⟩ := hs.out
  obtain rfl : f' = f := Option.some.inj (hout.symm.trans hf)
  have hlt : m < f'.toNat - 1 := by omega
  have hkeep := hs.follows.keep_payloads payloads
  have hserved : ∀ (j : ℕ) sb, (C.serve f' count)[j]? = some sb → C.blocks[f'.toNat - 1 + j]? = some sb := serve_at
  have hall : TakesAll env peer _ (C.serve f' count) := hkeep.takes_far hdec hlt hserved
  obtain ⟨m', hg, -, hfar'⟩ := hkeep.batch hserved hall
  obtain rfl := hfar' hlt
  refine ⟨hall, hg.follows.takes_ready hdec fun x hx hin => ?_⟩
  rcases hg.parked x (mem_ready hin) with hold | hnew
  · refine hs.unparked x hx ?_
    obtain ⟨v, hv⟩ := Option.isSome_iff_exists.mp (Std.ExtTreeMap.mem_iff_isSome_getElem?.mp hold)
    exact Std.ExtTreeMap.mem_iff_isSome_getElem?.mpr
      (by rw [(Aside.foldl keep_payload_aside payloads c.node).parked x v hv]; rfl)
  · obtain ⟨sb, hsb, rfl⟩ := List.mem_map.mp hnew
    obtain ⟨j, hj⟩ := List.mem_iff_getElem?.mp hsb
    have := height_inj (hash_at (serve_at j sb hj)) hx
    omega

/-- The orphan request goes out, and the next round is no better. -/
theorem Stuck.round (hs : C.Stuck our_head h peer c m) (hlong : h < C.blocks.length) (hdec : C.Decodes) {a : Answer}
    (hcount : 0 < a.count) : C.Stuck our_head h peer (C.round peer c a) m := by
  obtain ⟨f, hout, hfar, hasked⟩ := hs.out
  have hserved : TakesSync a.env peer c.node (C.serve f a.count) a.payloads := hs.takes hdec hout a.count a.payloads
  have hat (j : ℕ) (sb : StoredBlock) (hj : (C.serve f a.count)[j]? = some sb) : C.blocks[f.toNat - 1 + j]? = some sb :=
    serve_at j sb hj
  have hlen := length_serve (C := C) f a.count
  obtain ⟨m', hg, -, hsame⟩ := hs.follows.absorb hat hserved.1
  obtain rfl := hsame (by omega) hs.unparked
  obtain ⟨hnode, -, -, hnext⟩ := round_spec (a := a) hout
  rw [hs.follows.sync_asks_far (by omega) hat (by omega) hserved, Option.some_or] at hnext
  have hheight : c.node.head_height.toNat = h := by
    rw [head_height_eq, hs.head, hs.follows.ours.2]
  have height : (8 : UInt64).toNat = 8 := rfl
  have hdeep := hs.deep
  have hfollows : C.Follows our_head h (C.round peer c a).node m' := hnode ▸ hg.follows
  refine ⟨hfollows, ?_, hdeep, fun x hx hin => ?_, _, hnext, ?_, ?_⟩
  · rw [hnode]
    exact (hg.head rfl).trans hs.head
  · rw [hnode] at hin
    rcases hg.parked x hin with hold | hnew
    · exact hs.unparked x hx hold
    · obtain ⟨sb, hsb, rfl⟩ := List.mem_map.mp hnew
      obtain ⟨j, hj⟩ := List.mem_iff_getElem?.mp hsb
      have := height_inj (hash_at (hat j sb hj)) hx
      omega
  · rw [toNat_saturating_sub]
    omega
  · rw [toNat_saturating_sub]
    omega

end PeerChain

end Sestrian
