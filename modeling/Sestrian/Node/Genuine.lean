import Sestrian.Da.Sampling
import Sestrian.Node.Kept

/-!
# What is kept of a body is that body

The node stores the bodies and shards of its peers unchecked. In a run where everything that
arrives under a name is of the same body, so is everything on the disk and in the memory, and
what is rebuilt from shards is that body again.
-/

namespace Sestrian

open Store

variable [Crypto] [Serde]

/-- The name of a delta: the hex of a hash. It is one component of a path. -/
def IsName (id : String) : Prop := ∃ h : ByteArr 32, id = hex_encode h.val

omit [Serde] in
theorem isName_txid (t : BackpropTx) : IsName t.txid := ⟨_, rfl⟩

omit [Serde] in
theorem isName_of_mem {sb : StoredBlock} {id : String} (h : id ∈ sb.txids) : IsName id := by
  obtain ⟨t, -, rfl⟩ := List.mem_map.mp h
  exact isName_txid t

/-- A shard directory of these bytes. -/
structure DirOf (bytes : List UInt8) (d : DaDir) : Prop where
  info : ∀ m, d.info = some m → m.k = DA_K ∧ m.orig_len = bytes.length
  shards : da.Encoded bytes DA_K DA_N d.shards

/-- What the disk holds under a name is of the body of that name. -/
structure Genuine (body : String → Payload) (st : Store) : Prop where
  files : ∀ (id : String) bytes, IsName id → st.payloads[id]? = some bytes → bytes = Serde.to_vec (body id)
  dirs : ∀ id, IsName id → DirOf (Serde.to_vec (body id)) (st.dir id)

/-- Nothing new is on the disk. -/
structure Store.Sub (st st' : Store) : Prop where
  files : ∀ (id : String) bytes, st'.payloads[id]? = some bytes → st.payloads[id]? = some bytes
  info : ∀ id m, (st'.dir id).info = some m → (st.dir id).info = some m
  shards : ∀ id (i : UInt32) x, (st'.dir id).shards[i]? = some x → (st.dir id).shards[i]? = some x

variable {body : String → Payload} {st st' st'' : Store}

/-! ## The disk -/

namespace Store.Sub

omit [Crypto] [Serde] in
theorem refl (st : Store) : Sub st st := ⟨fun _ _ h => h, fun _ _ h => h, fun _ _ _ h => h⟩

omit [Crypto] [Serde] in
theorem trans (h : Sub st st') (h' : Sub st' st'') : Sub st st'' :=
  ⟨fun id b hb => h.files id b (h'.files id b hb), fun id m hm => h.info id m (h'.info id m hm),
    fun id i x hx => h.shards id i x (h'.shards id i x hx)⟩

omit [Crypto] [Serde] in
theorem remove (st : Store) (txid : String) : Sub st (st.remove_payload txid) := by
  refine ⟨fun id b hb => ?_, fun id m hm => ?_, fun id i x hx => ?_⟩
  · rw [remove_payload, SumMap.get_erase] at hb
    split at hb
    · cases hb
    · exact hb
  · rw [remove_payload, dir_erase] at hm
    split at hm
    · cases hm
    · exact hm
  · rw [remove_payload, dir_erase] at hx
    split at hx
    · simp at hx
    · exact hx

omit [Crypto] [Serde] in
theorem prune (st : Store) (txid : String) (keep : List UInt32) : Sub st (st.prune_body_to_shards txid keep) := by
  refine ⟨fun id b hb => ?_, fun id m hm => ?_, fun id i x hx => ?_⟩
  · rw [prune_body_to_shards, SumMap.get_erase] at hb
    split at hb
    · cases hb
    · exact hb
  · rw [dir_prune] at hm
    split at hm <;> exact hm
  · rw [dir_prune] at hx
    split at hx
    · rw [Std.ExtTreeMap.getElem?_filter'] at hx
      exact (Option.filter_eq_some_iff.mp hx).1
    · exact hx

end Store.Sub

namespace Genuine

omit [Crypto] in
theorem sub (h : Genuine body st) (hs : st.Sub st') : Genuine body st' :=
  ⟨fun id b hid hb => h.files id b hid (hs.files id b hb),
    fun id hid => ⟨fun m hm => (h.dirs id hid).info m (hs.info id m hm),
      fun i x hx => (h.dirs id hid).shards i x (hs.shards id i x hx)⟩⟩

omit [Crypto] in
/-- A directory may be written if it is of the body. -/
theorem insert (h : Genuine body st) {txid : String} {d : DaDir} (hd : IsName txid → DirOf (Serde.to_vec (body txid)) d) :
    Genuine body { st with da := st.da.insert txid d } := by
  refine ⟨h.files, fun id hid => ?_⟩
  have hdir : ({ st with da := st.da.insert txid d } : Store).dir id = if txid = id then d else st.dir id :=
    dir_insert st.da st.payloads txid id d
  rw [hdir]
  split
  · rename_i heq
    exact heq ▸ hd (heq ▸ hid)
  · exact h.dirs id hid

omit [Crypto] [Serde] in
theorem encoded_write {bytes : List UInt8} {shards : da.Shards} (h : da.Encoded bytes DA_K DA_N shards) :
    da.Encoded bytes DA_K DA_N (write_shards shards (da.encode bytes DA_K DA_N)) := by
  have key : ∀ (l : List (List UInt8 × Nat)) (m : da.Shards),
      (∀ e ∈ l, e.2 < DA_N ∧ (da.encode bytes DA_K DA_N)[e.2]? = some e.1) → da.Encoded bytes DA_K DA_N m →
      da.Encoded bytes DA_K DA_N (l.foldl (fun m sh => m.insert (UInt32.ofNat sh.2) sh.1) m) := by
    intro l
    induction l with
    | nil => exact fun m _ hm => hm
    | cons e l ih =>
      intro m hl hm
      obtain ⟨⟨hlt, hget⟩, hrest⟩ := List.forall_mem_cons.mp hl
      refine ih _ hrest fun i shard hi => ?_
      rw [SumMap.get_insert] at hi
      split at hi
      · rename_i heq
        have hsmall : e.2 < UInt32.size := lt_of_lt_of_le hlt (by decide)
        rw [← heq, UInt32.toNat_ofNat_of_lt' hsmall, hget, hi]
      · exact hm i shard hi
  refine key _ shards (fun e he => ?_) h
  have hget := List.mem_zipIdx_iff_getElem?.mp he
  refine ⟨?_, hget⟩
  obtain ⟨hlt, -⟩ := List.getElem?_eq_some_iff.mp hget
  simpa [da.encode] using hlt

theorem disperse_payload (h : Genuine body st) {txid : String} {p : Payload} (hp : IsName txid → p = body txid) :
    Genuine body (st.disperse_payload txid p) := by
  unfold Store.disperse_payload disperse_bytes
  split
  · exact h
  · refine h.insert fun hid => ?_
    obtain rfl := hp hid
    refine ⟨fun m hm => ?_, encoded_write (h.dirs txid hid).shards⟩
    obtain rfl := Option.some.inj hm
    exact ⟨rfl, rfl⟩

theorem put_payload (h : Genuine body st) {txid : String} {p : Payload} (hp : IsName txid → p = body txid) :
    Genuine body (st.put_payload txid p) := by
  unfold Store.put_payload
  split
  · exact h
  · have hfile : Genuine body { st with payloads := st.payloads.insert txid (Serde.to_vec p) } := by
      refine ⟨fun id b hid hb => ?_, h.dirs⟩
      rw [SumMap.get_insert] at hb
      split at hb
      · rename_i heq
        subst heq
        rw [← hp hid]
        exact (Option.some.inj hb).symm
      · exact h.files id b hid hb
    exact hfile.disperse_payload hp

omit [Crypto] in
theorem put_shard (h : Genuine body st) {txid : String} {i : UInt32} {data : List UInt8} {k n orig_len : Nat}
    (hs : IsName txid → k = DA_K ∧ orig_len = (Serde.to_vec (body txid)).length ∧
      (da.encode (Serde.to_vec (body txid)) DA_K DA_N)[i.toNat]? = some data) :
    Genuine body (st.put_shard txid i data k n orig_len) := by
  refine h.insert fun hid => ?_
  obtain ⟨hk, hlen, hdata⟩ := hs hid
  refine ⟨fun m hm => ?_, fun j x hx => ?_⟩
  · cases hinfo : (st.dir txid).info with
    | none =>
      rw [hinfo] at hm
      obtain rfl := Option.some.inj hm
      exact ⟨hk, hlen⟩
    | some m' =>
      rw [hinfo] at hm
      exact (h.dirs txid hid).info m (hinfo.trans hm)
  · rw [SumMap.get_insert] at hx
    split at hx
    · rename_i heq
      rw [← heq, hdata, hx]
    · exact (h.dirs txid hid).shards j x hx

end Genuine

/-! ## Reading it back -/

omit [Crypto] [Serde] in
/-- Enough shards give the bytes, and fewer give nothing. -/
theorem DirOf.reconstruct {bytes : List UInt8} {d : DaDir} (h : DirOf bytes d) {m : DaMeta} (hm : d.info = some m) :
    da.reconstruct d.shards m.k m.orig_len = if DA_K ≤ d.shards.size then some bytes else none := by
  obtain ⟨hk, hlen⟩ := h.info m hm
  rw [hk, hlen]
  split
  · rename_i hsize
    exact da.reconstruct_chosen (n := DA_N) (by decide) (by decide) hsize fun s hs =>
      da.of_encoded h.shards (Std.ExtTreeMap.mem_toList_iff_getElem?_eq_some.mp (List.mem_of_mem_take hs))
  · unfold da.reconstruct
    rw [if_pos (.inl (by omega))]

namespace Genuine

omit [Crypto] in
theorem reconstruct_payload (h : Genuine body st) {id : String} (hid : IsName id)
    (hserde : Serde.from_slice (Serde.to_vec (body id)) = some (body id)) {p : Payload}
    (hp : st.reconstruct_payload id = some p) : p = body id := by
  simp only [Store.reconstruct_payload, reconstruct_bytes, Option.bind_eq_bind, Option.bind_eq_some_iff] at hp
  obtain ⟨bytes, ⟨m, hm, hbytes⟩, hread⟩ := hp
  rw [(h.dirs id hid).reconstruct hm] at hbytes
  split at hbytes
  · rw [← Option.some.inj hbytes, hserde] at hread
    exact (Option.some.inj hread).symm
  · cases hbytes

omit [Crypto] in
theorem get_payload (h : Genuine body st) {id : String} (hid : IsName id)
    (hserde : Serde.from_slice (Serde.to_vec (body id)) = some (body id)) {p : Payload}
    (hp : st.get_payload id = some p) : p = body id := by
  unfold Store.get_payload at hp
  cases hfile : st.payloads[id]?.bind Serde.from_slice with
  | none =>
    rw [hfile, Option.none_or] at hp
    exact h.reconstruct_payload hid hserde hp
  | some q =>
    rw [hfile, Option.some_or] at hp
    obtain ⟨bytes, hbytes, hread⟩ := Option.bind_eq_some_iff.mp hfile
    rw [h.files id bytes hid hbytes, hserde] at hread
    exact (Option.some.inj hp).symm.trans (Option.some.inj hread).symm

omit [Crypto] in
/-- The body comes back from the shards of a directory that was made here. -/
theorem rebuilt (h : Genuine body st) {id : String} (hid : IsName id)
    (hserde : Serde.from_slice (Serde.to_vec (body id)) = some (body id)) (hd : st.dispersed id)
    (hsize : DA_K ≤ (st.dir id).shards.size) : st.reconstruct_payload id = some (body id) := by
  unfold dispersed DaDir.made at hd
  obtain ⟨m, hm, -⟩ := Option.any_eq_true _ _ |>.mp hd
  have hbytes := (h.dirs id hid).reconstruct hm
  rw [if_pos hsize] at hbytes
  simp only [Store.reconstruct_payload, reconstruct_bytes, hm, Option.bind_eq_bind, Option.bind_some, hbytes, hserde]

end Genuine

namespace Node

variable {s s' s'' : Node} {env : Env}

/-- What the node has of a body, on disk and in the memory, is that body. -/
structure Authentic (body : String → Payload) (s : Node) : Prop where
  disk : Genuine body s.store
  memory : ∀ (id : String) p, IsName id → s.payloads[id]? = some p → p = body id
  wanted : ∀ (id : String) w t, s.want_deltas[id]? = some w → w.1.to_core = some t → t.txid = id

/-- Nothing new is on the disk or in the memory, and no delta more is waited for. -/
structure Loses (s s' : Node) : Prop where
  disk : s.store.Sub s'.store
  memory : ∀ (id : String) p, s'.payloads[id]? = some p → s.payloads[id]? = some p
  wanted : ∀ (id : String) w, s'.want_deltas[id]? = some w → s.want_deltas[id]? = some w

/-! ## Steps that lose bodies -/

namespace Loses

omit [Crypto] [Serde] in
theorem refl (s : Node) : Loses s s := ⟨.refl _, fun _ _ h => h, fun _ _ h => h⟩

omit [Crypto] [Serde] in
theorem trans (h : Loses s s') (h' : Loses s' s'') : Loses s s'' :=
  ⟨h.disk.trans h'.disk, fun id p hp => h.memory id p (h'.memory id p hp), fun id w hw => h.wanted id w (h'.wanted id w hw)⟩

omit [Crypto] [Serde] in
theorem of_eq (hstore : s'.store = s.store) (hram : s'.payloads = s.payloads) (hwant : s'.want_deltas = s.want_deltas) :
    Loses s s' :=
  ⟨hstore ▸ .refl _, fun _ _ h => hram ▸ h, fun _ _ h => hwant ▸ h⟩

omit [Crypto] [Serde] in
theorem foldl {α : Type} {f : Node → α → Node} (h : ∀ s a, Loses s (f s a)) (l : List α) (s : Node) :
    Loses s (l.foldl f s) := by
  induction l generalizing s with
  | nil => exact refl s
  | cons a l ih => exact (h s a).trans (ih _)

omit [Crypto] [Serde] in
/-- A name leaves the memory. -/
theorem of_erase {txid : String} (hstore : s.store.Sub s'.store) (hram : s'.payloads = s.payloads.erase txid)
    (hwant : s'.want_deltas = s.want_deltas) : Loses s s' := by
  refine ⟨hstore, fun id p hp => ?_, fun _ _ h => hwant ▸ h⟩
  rw [hram, SumMap.get_erase] at hp
  split at hp
  · cases hp
  · exact hp

end Loses

theorem Authentic.loses (h : Authentic body s) (hl : Loses s s') : Authentic body s' :=
  ⟨h.disk.sub hl.disk, fun id p hid hp => h.memory id p hid (hl.memory id p hp),
    fun id w t hw ht => h.wanted id w t (hl.wanted id w hw) ht⟩

omit [Crypto] [Serde] in
theorem drop_all_loses (ids : List String) (s : Node) : Loses s (s.drop_all ids) :=
  Loses.foldl (f := drop_pool_delta) (fun s id => Loses.of_erase (.remove s.store id) rfl rfl) ids s

omit [Crypto] [Serde] in
theorem evict_delta_pool_loses (env : Env) (s : Node) : Loses s (s.evict_delta_pool env) := by
  unfold evict_delta_pool
  simp only
  split
  · exact (drop_all_loses _ s).trans (drop_all_loses _ _)
  · exact drop_all_loses _ s

omit [Crypto] [Serde] in
theorem mark_seen_loses (s : Node) (txid : String) : Loses s (s.mark_seen txid) := by
  unfold mark_seen
  split
  · exact .refl s
  · exact .of_eq rfl rfl rfl

omit [Serde] in
theorem evict_account_pool_loses (env : Env) (s : Node) : Loses s (s.evict_account_pool env) := by
  unfold evict_account_pool
  exact .of_eq rfl rfl rfl

omit [Serde] in
theorem park_loses (env : Env) (s : Node) (sb : StoredBlock) (source : Option PeerId) :
    Loses s (s.park env sb source) := by
  cases source with
  | none => exact .refl s
  | some peer =>
    unfold park queue_pending
    simp only
    split
    · split <;> exact .of_eq rfl rfl rfl
    · exact .of_eq rfl rfl rfl

omit [Serde] in
theorem settle_account_loses (s : Node) (t : AccountTx) : Loses s (s.settle_account t) := by
  unfold settle_account
  have herase : Loses s { s with account_pool := s.account_pool.erase t.txid } := .of_eq rfl rfl rfl
  exact herase.trans (mark_seen_loses _ _)

omit [Crypto] [Serde] in
theorem get_erase_names {ids : List String} {m : Dict Payload} {id : String} {p : Payload}
    (h : (ids.foldl (fun m id => m.erase id) m)[id]? = some p) : m[id]? = some p := by
  induction ids generalizing m with
  | nil => exact h
  | cons k ids ih =>
    have hk := ih h
    rw [SumMap.get_erase] at hk
    split at hk
    · cases hk
    · exact hk

omit [Serde] in
theorem drop_pending_loses (env : Env) (s : Node) (k : String) : Loses s (s.drop_pending env k) := by
  unfold drop_pending
  split
  · exact ⟨.refl _, fun id p hp => get_erase_names hp, fun _ _ h => h⟩
  · exact .refl s

omit [Serde] in
theorem prune_old_bodies_loses (s : Node) (head_h : UInt64) : Loses s (s.prune_old_bodies head_h) := by
  have hretained : Loses s (s.prune_retained head_h) := by
    unfold prune_retained
    simp only
    split
    · split
      · have hdelete := Loses.foldl (f := fun s id => { s with
            store := s.store.delete_body_and_shards id, payloads := s.payloads.erase id })
          (fun s id => Loses.of_erase (.remove s.store id) rfl rfl)
        exact (hdelete _ s).trans (.of_eq rfl rfl rfl)
      · exact .refl s
    · exact .refl s
  unfold prune_old_bodies
  simp only
  split
  · exact hretained
  · split
    · rename_i sb _
      have hzone : ∀ (ids : List String) (st : Store) (zone : List UInt32),
          st.Sub (ids.foldl (fun st id => st.prune_body_to_shards id zone) st) := by
        intro ids
        induction ids with
        | nil => exact fun st _ => .refl st
        | cons k ids ih => exact fun st zone => (Store.Sub.prune st k zone).trans (ih _ zone)
      exact hretained.trans ⟨hzone sb.txids _ _, fun _ _ h => h, fun _ _ h => h⟩
    · exact hretained

omit [Crypto] [Serde] in
theorem expire_wanted_loses (env : Env) (s : Node) : Loses s (s.expire_wanted env) := by
  refine ⟨.refl _, fun _ _ h => h, fun id w hw => ?_⟩
  unfold expire_wanted at hw
  rw [Std.ExtTreeMap.getElem?_filter'] at hw
  exact (Option.filter_eq_some_iff.mp hw).1

omit [Serde] in
theorem on_head_advance_loses (env : Env) (s : Node) : Loses s (s.on_head_advance env) := by
  unfold on_head_advance
  simp only
  have hevict := (evict_delta_pool_loses env s).trans (evict_account_pool_loses env _)
  exact (hevict.trans (Loses.foldl (drop_pending_loses env) _ _)).trans (prune_old_bodies_loses _ _)

/-! ## Steps that bring bodies -/

section

variable (hserde : ∀ id, Serde.from_slice (Serde.to_vec (body id)) = some (body id))

theorem Authentic.remember (h : Authentic body s) {id : String} {p : Payload} (hp : IsName id → p = body id) :
    Authentic body { s with payloads := s.payloads.insert id p } := by
  refine ⟨h.disk, fun id' q hid hq => ?_, h.wanted⟩
  rw [SumMap.get_insert] at hq
  split at hq
  · rename_i heq
    subst heq
    rw [← Option.some.inj hq]
    exact hp hid
  · exact h.memory id' q hid hq

theorem Authentic.pool_delta (h : Authentic body s) {t : BackpropTx} {p : Payload} (hp : p = body t.txid) :
    Authentic body (s.pool_delta t p) := by
  have hname : IsName t.txid → p = body t.txid := fun _ => hp
  have hseen := h.loses ((Loses.of_eq rfl rfl rfl : Loses s { s with
    tree := { s.tree with hash_verified := s.tree.hash_verified.insert t.txid } }).trans (mark_seen_loses _ t.txid))
  have hput := hseen.disk.put_payload hname
  have hram := hseen.remember hname
  unfold Node.pool_delta
  simp only
  split
  · exact ⟨hput.disperse_payload hname, hram.memory, hram.wanted⟩
  · exact ⟨hput, hram.memory, hram.wanted⟩

theorem Authentic.accept_delta (h : Authentic body s) {t : BackpropTx} {p : Payload} (hp : p = body t.txid) :
    Authentic body (s.accept_delta env t p).2 := by
  unfold Node.accept_delta
  split
  · exact (h.pool_delta hp).loses (evict_delta_pool_loses env _)
  · exact h

theorem Authentic.settle_delta (h : Authentic body s) (id : String) : Authentic body (s.settle_delta id) := by
  unfold Node.settle_delta
  simp only
  split
  · rename_i p hget
    have hput : Genuine body (s.store.put_payload id p) := h.disk.put_payload fun hid => h.memory id p hid hget
    have hram : Authentic body { s with store := s.store.put_payload id p } := ⟨hput, h.memory, h.wanted⟩
    exact hram.loses (.of_erase (.refl _) rfl rfl)
  · exact h.loses (.of_eq rfl rfl rfl)

theorem Authentic.installed (h : Authentic body s) (env : Env) (sb : StoredBlock) (old_head : String) :
    Authentic body (s.installed env sb old_head) := by
  have hsettle : ∀ (ids : List String) (s : Node), Authentic body s → Authentic body (ids.foldl Node.settle_delta s) := by
    intro ids
    induction ids with
    | nil => exact fun s h => h
    | cons k ids ih => exact fun s h => ih _ (h.settle_delta k)
  have haccounts := (hsettle sb.txids s h).loses (Loses.foldl settle_account_loses sb.account_txs _)
  have hrecorded (blocks_full : Dict StoredBlock) : Authentic body
      { sb.account_txs.foldl settle_account (sb.txids.foldl Node.settle_delta s) with blocks_full } :=
    haccounts.loses (.of_eq rfl rfl rfl)
  unfold Node.installed
  simp only
  split
  · exact (hrecorded _).loses (on_head_advance_loses env _)
  · exact hrecorded _

include hserde

theorem Authentic.preload (h : Authentic body s) {ids : List String} (hids : ∀ id ∈ ids, IsName id) :
    Authentic body (s.preload ids) := by
  unfold Node.preload
  induction ids generalizing s with
  | nil => exact h
  | cons k ids ih =>
    obtain ⟨hk, hids⟩ := List.forall_mem_cons.mp hids
    rw [List.foldl_cons]
    refine ih ?_ hids
    split
    · exact h
    · split
      · rename_i p hp
        exact h.remember fun _ => h.disk.get_payload hk (hserde k) hp
      · exact h

theorem Authentic.recover (h : Authentic body s) {ids : List String} (hids : ∀ id ∈ ids, IsName id) :
    Authentic body (s.recover ids) := by
  unfold Node.recover
  induction ids generalizing s with
  | nil => exact h
  | cons k ids ih =>
    obtain ⟨hk, hids⟩ := List.forall_mem_cons.mp hids
    rw [List.foldl_cons]
    refine ih ?_ hids
    split
    · exact h
    · split
      · rename_i p hp
        exact h.remember fun _ => h.disk.reconstruct_payload hk (hserde k) hp
      · exact h

theorem Authentic.install (h : Authentic body s) (sb : StoredBlock) (source : Option PeerId) :
    Authentic body (s.install env sb source).2 := by
  have hids : ∀ id ∈ sb.txids, IsName id := fun id hid => isName_of_mem hid
  have hpre := h.preload hserde hids
  have htree (tree : BlockTree) : Authentic body { s.preload sb.txids with tree } := hpre.loses (.of_eq rfl rfl rfl)
  unfold Node.install
  split
  · exact h
  · simp only
    split
    · exact (hpre.recover hserde hids).loses (park_loses env _ sb source)
    · split
      · exact (htree _).installed env sb _
      · split
        · exact (htree _).loses (park_loses env _ sb source)
        · exact htree _

theorem Authentic.retry_pending (h : Authentic body s) : Authentic body (s.retry_pending env) := by
  unfold Node.retry_pending
  simp only
  generalize (env.order s.pending.keys).filter _ = ready
  induction ready generalizing s with
  | nil => exact h
  | cons k ready ih =>
    refine ih ?_
    unfold retry_one
    split
    · have hout : Authentic body { s with pending := s.pending.erase k, pending_at := s.pending_at.erase k } :=
        h.loses (.of_eq rfl rfl rfl)
      exact hout.install hserde _ _
    · exact h

theorem Authentic.announce (h : Authentic body s) {tx : WireDeltaTx} {t : BackpropTx} (htx : tx.to_core = some t) :
    Authentic body (s.announce env tx t) := by
  unfold Node.announce
  split
  · rename_i p hp
    have hbody : p = body t.txid := by
      cases hram : s.payloads[t.txid]? with
      | some q =>
        rw [hram, Option.some_or] at hp
        exact (Option.some.inj hp).symm.trans (h.memory _ q (isName_txid t) hram)
      | none =>
        rw [hram, Option.none_or] at hp
        exact h.disk.reconstruct_payload (isName_txid t) (hserde _) hp
    exact (h.remember fun _ => hbody).accept_delta hbody
  · split
    · refine ⟨h.disk, h.memory, fun id w t' hw ht' => ?_⟩
      rw [SumMap.get_insert] at hw
      split at hw
      · rename_i heq
        rw [← Option.some.inj hw, htx] at ht'
        rw [← Option.some.inj ht', heq]
      · exact h.wanted id w t' hw ht'
    · exact h

theorem Authentic.rebuild (h : Authentic body s) (txid : String) : Authentic body (s.rebuild txid) := by
  unfold Node.rebuild
  split
  · split
    · rename_i p hp
      exact ⟨h.disk.put_payload fun hid => h.disk.reconstruct_payload hid (hserde txid) hp, h.memory, h.wanted⟩
    · exact h
  · exact h

theorem Authentic.fulfil (h : Authentic body s) (txid : String) : Authentic body (s.fulfil env txid) := by
  unfold Node.fulfil
  split
  · exact h
  · rename_i wtx at_time hw
    have hname {t : BackpropTx} (ht : wtx.to_core = some t) : t.txid = txid := h.wanted txid _ t hw ht
    split
    · refine ⟨h.disk, h.memory, fun id w t hw' ht => ?_⟩
      rw [SumMap.get_insert] at hw'
      split at hw'
      · rename_i heq
        obtain rfl := Option.some.inj hw'
        exact (hname ht).trans heq
      · exact h.wanted id w t hw' ht
    · rename_i p hp
      have herase : Loses s { s with want_deltas := s.want_deltas.erase txid } := by
        refine ⟨.refl _, fun _ _ h => h, fun id w hw' => ?_⟩
        rw [SumMap.get_erase] at hw'
        split at hw'
        · cases hw'
        · exact hw'
      simp only
      split
      · rename_i t ht
        refine (h.loses herase).accept_delta ?_
        have hid : IsName txid := hname ht ▸ isName_txid t
        rw [hname ht]
        cases hram : s.payloads[txid]? with
        | some q =>
          rw [hram, Option.some_or] at hp
          exact (Option.some.inj hp).symm.trans (h.memory _ q hid hram)
        | none =>
          rw [hram, Option.none_or] at hp
          exact h.disk.get_payload hid (hserde _) hp
      · exact h.loses herase

end

/-! ## Messages -/

/-- A shard of the body of that name, or one of genesis, which is no delta. -/
def ShardsOf (body : String → Payload) (b : BodyShards) : Prop :=
  b.txid = GENESIS_DA_KEY ∨ IsName b.txid ∧ b.k = DA_K ∧ b.orig_len = (Serde.to_vec (body b.txid)).length ∧
    ∀ sh ∈ b.shards, ∀ bytes, unb64 sh.2 = some bytes →
      (da.encode (Serde.to_vec (body b.txid)) DA_K DA_N)[sh.1.toNat]? = some bytes

/-- What the message brings under a name is of the body of that name. -/
def FromBody (body : String → Payload) : Msg → Prop
  | .Dtx tx payload => ∀ t, tx.to_core = some t → ¬ (payload.idx = "" ∧ payload.val = "") → payload = body t.txid
  | .SyncBatch _ _ payloads => ∀ e ∈ payloads, IsName e.1 ∧ e.2 = body e.1
  | .ShardBatch _ bodies => ∀ b ∈ bodies, ShardsOf body b
  | _ => True

omit [Crypto] [Serde] in
theorem genesis_no_name : ¬ IsName GENESIS_DA_KEY := by
  rintro ⟨h, he⟩
  have hdecode : hex_decode GENESIS_DA_KEY = none := by decide
  rw [he, hex_decode_encode] at hdecode
  cases hdecode

theorem Authentic.put_shards (h : Authentic body s) {b : BodyShards} (hb : ShardsOf body b) :
    Authentic body { s with store := put_shards s.store b } := by
  refine ⟨?_, h.memory, h.wanted⟩
  unfold Node.put_shards
  refine List.foldlRecOn b.shards _ h.disk fun st hst sh hsh => ?_
  split
  · rename_i bytes hbytes
    refine hst.put_shard fun hid => ?_
    rcases hb with hgen | ⟨-, hk, hlen, hshards⟩
    · exact absurd (hgen ▸ hid) genesis_no_name
    · exact ⟨hk, hlen, hshards sh hsh bytes hbytes⟩
  · exact hst

section

variable (hserde : ∀ id, Serde.from_slice (Serde.to_vec (body id)) = some (body id))

include hserde

theorem Authentic.handle_dtx (h : Authentic body s) {tx : WireDeltaTx} {p : Payload} (hp : FromBody body (.Dtx tx p)) :
    Authentic body (s.handle_dtx env tx p) := by
  unfold Node.handle_dtx
  split
  · exact h
  · rename_i t ht
    refine Authentic.retry_pending hserde ?_
    split
    · exact h.announce hserde ht
    · exact h.accept_delta (hp t ht ‹_›)

theorem Authentic.handle_sync_batch (h : Authentic body s) {peer : PeerId} {blocks : List StoredBlock}
    {payloads : List (String × Payload)} (hp : FromBody body (.SyncBatch peer blocks payloads)) :
    Authentic body (s.handle_sync_batch env peer blocks payloads) := by
  have hkeep : ∀ (l : List (String × Payload)) (s : Node), (∀ e ∈ l, e ∈ payloads) → Authentic body s →
      Authentic body (l.foldl Node.keep_payload s) := by
    intro l
    induction l with
    | nil => exact fun s _ h => h
    | cons e l ih =>
      intro s hl h
      obtain ⟨he, hrest⟩ := List.forall_mem_cons.mp hl
      refine ih _ hrest ?_
      unfold keep_payload
      split
      · exact h
      · exact ⟨h.disk.put_payload fun _ => (hp e he).2, h.memory, h.wanted⟩
  have hall : ∀ (l : List StoredBlock) (s : Node), Authentic body s →
      Authentic body (l.foldl (fun s sb => (s.install env sb (some peer)).2) s) := by
    intro l
    induction l with
    | nil => exact fun s h => h
    | cons sb l ih => exact fun s h => ih _ (h.install hserde sb (some peer))
  have hr : Authentic body (Node.retry_pending env _) :=
    (hall blocks _ (hkeep payloads s (fun _ h => h) h)).retry_pending hserde
  unfold Node.handle_sync_batch
  simp only
  split
  · exact hr
  · exact hr.loses (expire_wanted_loses env _)

theorem Authentic.handle_shard_batch (h : Authentic body s) {current : Bool} {bodies : List BodyShards}
    (hb : FromBody body (.ShardBatch current bodies)) : Authentic body (s.handle_shard_batch env current bodies) := by
  have hall : ∀ (l : List BodyShards) (s : Node), (∀ b ∈ l, b ∈ bodies) → Authentic body s →
      Authentic body (l.foldl (Node.take_shards env) s) := by
    intro l
    induction l with
    | nil => exact fun s _ h => h
    | cons b l ih =>
      intro s hl h
      obtain ⟨hmem, hrest⟩ := List.forall_mem_cons.mp hl
      exact ih _ hrest (((h.put_shards (hb b hmem)).rebuild hserde b.txid).fulfil hserde b.txid)
  have hk := hall bodies s (fun _ h => h) h
  unfold Node.handle_shard_batch
  simp only
  split
  · split
    · exact (hk.retry_pending hserde).loses (expire_wanted_loses env _)
    · exact hk.retry_pending hserde
  · exact hk

/-- One step keeps what is held authentic, when it brings nothing forged. -/
theorem Authentic.handle (h : Authentic body s) (m : Env × Msg) (hm : FromBody body m.2) : Authentic body (s.handle m) := by
  obtain ⟨env, m⟩ := m
  cases m with
  | Dtx tx p => exact h.handle_dtx hserde hm
  | Atx v =>
    unfold Node.handle
    simp only
    split
    · rename_i t _
      unfold accept_account_tx
      split
      · exact h
      · have hpool : Loses (s.mark_seen t.txid) { s.mark_seen t.txid with
            account_pool := (s.mark_seen t.txid).account_pool.insert t.txid t } := .of_eq rfl rfl rfl
        exact h.loses (((mark_seen_loses s t.txid).trans hpool).trans (evict_account_pool_loses env _))
    · exact h
  | Blk sb source => exact (h.install hserde sb source).retry_pending hserde
  | SyncBatch peer blocks payloads => exact h.handle_sync_batch hserde hm
  | ShardBatch current bodies => exact h.handle_shard_batch hserde hm
  | Scores height scores sketches =>
    unfold Node.handle handle_scores
    simp only
    split
    · exact h.loses (.of_eq rfl rfl rfl)
    · exact h
  | Propose attempt =>
    change Authentic body (s.propose env attempt)
    unfold Node.propose
    split
    · exact h
    · split
      · exact h.loses (.of_eq rfl rfl rfl)
      · refine Authentic.loses ?_ (on_head_advance_loses env _)
        exact h.loses (.of_eq rfl rfl rfl)

theorem Authentic.run {ms : List (Env × Msg)} (h : Authentic body s) (hm : ∀ m ∈ ms, FromBody body m.2) :
    Authentic body (s.run ms) := by
  induction ms generalizing s with
  | nil => exact h
  | cons m ms ih =>
    obtain ⟨hfirst, hrest⟩ := List.forall_mem_cons.mp hm
    exact ih (h.handle hserde m hfirst) hrest

end

end Node

end Sestrian
