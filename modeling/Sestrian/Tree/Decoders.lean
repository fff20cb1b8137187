import Sestrian.Code.Decode
import Sestrian.Tree.Chunks
import Sestrian.Tree.Incremental

/-!
# The decoders of a payload

`coords` returns `None` on what it cannot decode. `dense` and `dense_range` decode the same payloads to the same
values, and panic on some of the others.
-/

open Panic

namespace Sestrian

open Aggregate

namespace Decoders

/-! ## Words -/

theorem length_words (b : List UInt8) : (words b).length = b.length / 4 := by
  induction b using words.induct with
  | case1 a b c d rest ih =>
    unfold words
    simp only [List.length_cons, ih]
    omega
  | case2 b h =>
    have hshort : b.length < 4 := by
      rcases b with _ | ⟨a, _ | ⟨b, _ | ⟨c, _ | ⟨d, rest⟩⟩⟩⟩
      · simp
      · simp
      · simp
      · simp
      · exact absurd rfl (h a b c d rest)
    unfold words
    split
    · simp only [List.length_cons] at hshort
      omega
    · rw [List.length_nil]
      omega

/-- A loop over the indices of two lists of one length is a loop over their pairs. -/
theorem foldlM_pairs {α β σ : Type} (g : σ → Option α → Option β → MayPanic σ) {a : List α} {b : List β}
    (h : a.length = b.length) (s : σ) :
    (List.range a.length).foldlM (fun s i => g s a[i]? b[i]?) s =
      (a.zip b).foldlM (fun s c => g s (some c.1) (some c.2)) s := by
  induction a generalizing b s with
  | nil => rfl
  | cons x a ih =>
    cases b with
    | nil => simp at h
    | cons y b =>
      have h' : a.length = b.length := by simpa using h
      rw [List.length_cons, List.range_succ_eq_map, List.foldlM_cons, List.zip_cons_cons, List.foldlM_cons]
      simp only [List.foldlM_map, List.getElem?_cons_zero, List.getElem?_cons_succ]
      congr 1
      funext s'
      exact ih h' s'

theorem foldlM_entries {σ : Type} (g : σ → Option UInt32 → Option UInt32 → MayPanic σ) {idx val : List UInt8}
    (h : idx.length / 4 = val.length / 4) (f : σ → UInt32 × Int64 → MayPanic σ)
    (hf : ∀ s i w, g s (some i) (some w) = f s (i, word_value w)) (s : σ) :
    (List.range (idx.length / 4)).foldlM (fun s i => g s (words idx)[i]? (words val)[i]?) s =
      (Payload.entries idx val).foldlM f s := by
  have hlen : (words idx).length = (words val).length := by rw [length_words, length_words, h]
  have hentries : Payload.entries idx val = ((words idx).zip (words val)).map fun c => (c.1, word_value c.2) := by
    unfold Payload.entries
    rw [List.zip_map_right]
    rfl
  rw [← length_words idx, foldlM_pairs g hlen, hentries, List.foldlM_map]
  congr 1
  funext s c
  exact hf s c.1 c.2

/-! ## The three loops -/

theorem write_some {b : DenseBody} {i : UInt32} {v : Int64} (h : i.toNat < b.vals.length) :
    ∃ b', b.write i v = some b' ∧ b'.vals = b.vals.set i.toNat v := by
  unfold DenseBody.write
  rw [if_pos h]
  exact ⟨_, rfl, rfl⟩

theorem foldlM_write {es : List (UInt32 × Int64)} {b : DenseBody} (h : ∀ c ∈ es, c.1.toNat < b.vals.length) :
    ∃ b', es.foldlM (fun out c => (unwrap (out.write c.1 c.2) : MayPanic DenseBody)) b = .ok b' ∧
      b'.vals = es.foldl (fun out c => out.set c.1.toNat c.2) b.vals := by
  induction es generalizing b with
  | nil => exact ⟨b, rfl, rfl⟩
  | cons c es ih =>
    obtain ⟨hc, hes⟩ := List.forall_mem_cons.mp h
    obtain ⟨b₁, hb₁, hvals⟩ := write_some (v := c.2) hc
    have hes₁ : ∀ c ∈ es, c.1.toNat < b₁.vals.length := by
      intro c hc
      rw [hvals, List.length_set]
      exact hes c hc
    obtain ⟨b', hb', hvals'⟩ := ih hes₁
    refine ⟨b', ?_, ?_⟩
    · rw [List.foldlM_cons, hb₁]
      exact hb'
    · rw [List.foldl_cons, ← hvals]
      exact hvals'

theorem foldlM_write_panic {es : List (UInt32 × Int64)} {b : DenseBody} (h : ∃ c ∈ es, b.vals.length ≤ c.1.toNat) :
    es.foldlM (fun out c => (unwrap (out.write c.1 c.2) : MayPanic DenseBody)) b = .error .panic := by
  induction es generalizing b with
  | nil =>
    obtain ⟨c, hc, -⟩ := h
    exact absurd hc List.not_mem_nil
  | cons c es ih =>
    rw [List.foldlM_cons]
    by_cases hc : c.1.toNat < b.vals.length
    · obtain ⟨b₁, hb₁, hvals⟩ := write_some (v := c.2) hc
      rw [hb₁]
      refine ih ?_
      obtain ⟨d, hd, hbig⟩ := h
      rcases List.mem_cons.mp hd with rfl | hd
      · omega
      · exact ⟨d, hd, by rw [hvals, List.length_set]; exact hbig⟩
    · unfold DenseBody.write
      rw [if_neg hc]
      rfl

/-- One round of `coords`. -/
def insert_below (n : Nat) (m : Coords) (c : UInt32 × Int64) : MayPanic Coords :=
  if c.1.toNat ≥ n then .error (.reject ()) else pure (m.insert c.1 c.2)

theorem foldlM_insert_below {n : Nat} (es : List (UInt32 × Int64)) (m : Coords) : es.foldlM (insert_below n) m =
    if ∀ c ∈ es, c.1.toNat < n then .ok (es.foldl (fun m c => m.insert c.1 c.2) m) else .error (.reject ()) := by
  induction es generalizing m with
  | nil =>
    rw [if_pos (List.forall_mem_nil _)]
    rfl
  | cons c es ih =>
    rw [List.foldlM_cons]
    unfold insert_below
    by_cases hc : c.1.toNat < n
    · rw [if_neg (by omega)]
      refine (ih _).trans ?_
      have hall : (∀ d ∈ c :: es, d.1.toNat < n) ↔ ∀ d ∈ es, d.1.toNat < n :=
        ⟨fun h => (List.forall_mem_cons.mp h).2, fun h => List.forall_mem_cons.mpr ⟨hc, h⟩⟩
      simp only [hall, List.foldl_cons]
    · rw [if_pos (by omega), if_neg fun h => hc (h c List.mem_cons_self)]
      rfl

/-- One round of `dense_range`. -/
def set_within (lo hi : Nat) (out : List Int64) (c : UInt32 × Int64) : MayPanic (List Int64) :=
  if lo ≤ c.1.toNat ∧ c.1.toNat < hi then
    unwrap (if c.1.toNat - lo < out.length then some (out.set (c.1.toNat - lo) c.2) else none)
  else pure out

theorem foldlM_set_within {lo hi : Nat} (es : List (UInt32 × Int64)) (out : List Int64) (hout : out.length = hi - lo) :
    es.foldlM (set_within lo hi) out = .ok ((es.filter fun c => lo ≤ c.1.toNat ∧ c.1.toNat < hi).foldl
      (fun out c => out.set (c.1.toNat - lo) c.2) out) := by
  induction es generalizing out with
  | nil => rfl
  | cons c es ih =>
    rw [List.foldlM_cons]
    unfold set_within
    by_cases hc : lo ≤ c.1.toNat ∧ c.1.toNat < hi
    · have hlt : c.1.toNat - lo < out.length := by omega
      rw [if_pos hc, if_pos hlt, List.filter_cons_of_pos (by simpa using hc), List.foldl_cons]
      exact ih _ (by rw [List.length_set, hout])
    · rw [if_neg hc, List.filter_cons_of_neg (by simpa using hc)]
      exact ih _ hout

/-! ## The streamed hash -/

theorem int64_bytes_append (a b : List Int64) : int64_bytes (a ++ b) = int64_bytes a ++ int64_bytes b := List.flatMap_append

theorem int64_bytes_zeros (k : Nat) : int64_bytes (List.replicate k 0) = List.replicate (k * 8) 0 := by
  induction k with
  | zero => rfl
  | succ k ih =>
    rw [List.replicate_succ', int64_bytes_append, ih, Nat.succ_mul, ← List.replicate_append_replicate]
    rfl

theorem map_zeros {cs : List (UInt32 × Int64)} {pos k : Nat} (h : ∀ c ∈ cs, pos + k ≤ c.1.toNat) :
    (List.range' pos k).map (value_at cs) = List.replicate k 0 := by
  refine List.eq_replicate_iff.mpr ⟨by rw [List.length_map, List.length_range'], fun x hx => ?_⟩
  obtain ⟨j, hj, rfl⟩ := List.mem_map.mp hx
  rw [List.mem_range'_1] at hj
  refine value_at_eq_zero fun c hc he => ?_
  have := h c hc
  simp only [place] at he
  omega

/-- The streamed image of sorted coordinates is the image of the whole vector, of any length. -/
theorem sparse_image_eq {n pos : Nat} {cs : List (UInt32 × Int64)} (hs : cs.Pairwise fun a b => a.1 < b.1)
    (hlo : ∀ c ∈ cs, pos ≤ c.1.toNat) (hhi : ∀ c ∈ cs, c.1.toNat < n) :
    sparse_image n pos cs = int64_bytes ((List.range' pos (n - pos)).map (value_at cs)) := by
  induction cs generalizing pos with
  | nil =>
    rw [map_zeros (List.forall_mem_nil _), int64_bytes_zeros]
    rfl
  | cons c cs ih =>
    obtain ⟨i, v⟩ := c
    obtain ⟨hafter, hs⟩ := List.pairwise_cons.mp hs
    have hi : pos ≤ i.toNat := hlo (i, v) List.mem_cons_self
    have hin : i.toNat < n := hhi (i, v) List.mem_cons_self
    have hlate : ∀ c ∈ cs, i.toNat + 1 ≤ c.1.toNat := fun c hc => UInt32.lt_iff_toNat_lt.mp (hafter c hc)
    have hsplit : n - pos = (i.toNat - pos) + (1 + (n - (i.toNat + 1))) := by omega
    have hstart : pos + (i.toNat - pos) = i.toNat := by omega
    have hgap : (List.range' pos (i.toNat - pos)).map (value_at ((i, v) :: cs)) = List.replicate (i.toNat - pos) 0 := by
      refine map_zeros fun c hc => ?_
      rw [hstart]
      rcases List.mem_cons.mp hc with rfl | hc
      · exact le_rfl
      · exact (Nat.le_succ _).trans (hlate c hc)
    have hhere : value_at ((i, v) :: cs) i.toNat = v := by
      rw [value_at_cons]
      exact if_pos rfl
    have hrest : (List.range' (i.toNat + 1) (n - (i.toNat + 1))).map (value_at ((i, v) :: cs)) =
        (List.range' (i.toNat + 1) (n - (i.toNat + 1))).map (value_at cs) := by
      refine List.map_congr_left fun j hj => ?_
      rw [List.mem_range'_1] at hj
      rw [value_at_cons, if_neg]
      simp only [place]
      omega
    have hrange : List.range' pos (n - pos) =
        List.range' pos (i.toNat - pos) ++ i.toNat :: List.range' (i.toNat + 1) (n - (i.toNat + 1)) := by
      rw [hsplit, ← List.range'_append_1, hstart, Nat.add_comm 1, List.range'_succ]
    rw [hrange, List.map_append, int64_bytes_append, List.map_cons, hgap, hhere, hrest, int64_bytes_zeros]
    unfold sparse_image
    rw [ih hs hlate fun c hc => hhi c (List.mem_cons_of_mem _ hc), List.append_assoc]
    rfl

/-! ## One payload -/

/-- The vector that sorted coordinates stand for. -/
def densify (n : Nat) (cs : List (UInt32 × Int64)) : List Int64 := (List.range n).map (value_at cs)

/-- What the decoders of a payload owe each other. -/
structure Coherent [Crypto] (p : Payload) : Prop where
  coords : p.run_coords ≠ .error .panic
  dense : p.dense ≠ .error .panic
  range : ∀ lo hi, lo ≤ hi → hi ≤ p.n → p.run_dense_range lo hi ≠ .error .panic
  accepts : (∃ b, p.dense = .ok b) ↔ ∃ cs, p.run_coords = .ok cs
  values : ∀ b cs, p.dense = .ok b → p.run_coords = .ok cs → b.vals = densify p.n cs
  ranges : ∀ b cs, p.dense = .ok b → p.run_coords = .ok cs → ∀ lo hi, lo ≤ hi → hi ≤ p.n →
    p.run_dense_range lo hi = .ok (slice b.vals lo hi)
  hashes : ∀ b cs, p.dense = .ok b → p.run_coords = .ok cs →
    delta_hash_sparse p.n cs = delta_hash (int64_bytes b.vals)

/-- The vector fits into memory addresses, and what decodes has one value for each index and no index past the end. -/
def WellStated (p : Payload) : Prop :=
  p.n * 8 < 2 ^ 63 ∧ ∀ idx val, unb64 p.idx = some idx → unb64 p.val = some val →
    idx.length / 4 = val.length / 4 ∧ ∀ i ∈ words idx, i.toNat < p.n

section Specs

variable {p : Payload} {idx val : List UInt8}

theorem mem_entries_iff (h : idx.length / 4 = val.length / 4) (P : UInt32 → Prop) :
    (∀ c ∈ Payload.entries idx val, P c.1) ↔ ∀ i ∈ words idx, P i := by
  have hfst : (Payload.entries idx val).map Prod.fst = words idx := by
    unfold Payload.entries
    refine List.map_fst_zip (le_of_eq ?_)
    rw [List.length_map, length_words, length_words, h]
  rw [← hfst, List.forall_mem_map]

theorem coords_eq (hidx : unb64 p.idx = some idx) (hval : unb64 p.val = some val)
    (hlen : idx.length / 4 = val.length / 4) (hin : ∀ i ∈ words idx, i.toNat < p.n) :
    p.coords = some ((Payload.last_writes (Payload.entries idx val)).toList.filter fun c => c.2 ≠ 0) := by
  have hall := (mem_entries_iff hlen fun i => i.toNat < p.n).mpr hin
  simp only [Payload.coords, hidx, hval, Option.bind_eq_bind, Option.bind_some]
  rw [if_neg (not_not.mpr hlen), if_pos (by simpa using hall)]

theorem run_coords_eq (hidx : unb64 p.idx = some idx) (hval : unb64 p.val = some val)
    (hlen : idx.length / 4 = val.length / 4) (hin : ∀ i ∈ words idx, i.toNat < p.n) : p.run_coords =
      .ok ((Payload.last_writes (Payload.entries idx val)).toList.filter fun c => c.2 ≠ 0) := by
  unfold Payload.run_coords
  rw [hidx, hval]
  have hloop := foldlM_entries (σ := Coords) (fun m i w => do
    let ix ← unwrap i
    if ix.toNat ≥ p.n then .error (.reject ())
    else
      let v ← unwrap w
      pure (m.insert ix (word_value v))) hlen (insert_below p.n) (fun _ _ _ => rfl) ∅
  rw [foldlM_insert_below, if_pos ((mem_entries_iff hlen fun i => i.toNat < p.n).mpr hin)] at hloop
  change (if idx.length / 4 ≠ val.length / 4 then _ else _) = _
  rw [if_neg (not_not.mpr hlen), hloop]
  rfl

theorem dense_eq (hn : p.n * 8 < 2 ^ 63) (hidx : unb64 p.idx = some idx) (hval : unb64 p.val = some val)
    (hlen : idx.length / 4 = val.length / 4) : p.dense =
      (Payload.entries idx val).foldlM (fun out c => unwrap (out.write c.1 c.2)) (DenseBody.zeros p.n) := by
  unfold Payload.dense decompress alloc
  rw [hidx, hval]
  have hloop := foldlM_entries (σ := DenseBody) (fun out i w => do
    let idx ← unwrap i
    let val ← unwrap w
    unwrap (out.write idx (word_value val))) hlen (fun out c => unwrap (out.write c.1 c.2)) (fun _ _ _ => rfl)
    (DenseBody.zeros p.n)
  rw [← hloop, if_pos hn]
  change (if val.length / 4 ≠ idx.length / 4 then _ else _) = _
  rw [if_neg (not_not.mpr hlen.symm)]

theorem run_dense_range_eq {lo hi : Nat} (hn : (hi - lo) * 8 < 2 ^ 63) (hidx : unb64 p.idx = some idx)
    (hval : unb64 p.val = some val) (hlen : idx.length / 4 = val.length / 4) : p.run_dense_range lo hi =
      .ok ((List.range (hi - lo)).map fun j => at_coord (Payload.last_writes (Payload.entries idx val)) (lo + j)) := by
  unfold Payload.run_dense_range alloc
  rw [hidx, hval, if_pos hn]
  have hloop := foldlM_entries (σ := List Int64) (fun out i w => do
    let j ← unwrap i
    if lo ≤ j.toNat ∧ j.toNat < hi then
      let v ← unwrap w
      unwrap (if j.toNat - lo < out.length then some (out.set (j.toNat - lo) (word_value v)) else none)
    else pure out) hlen (set_within lo hi) (fun _ _ _ => rfl) (List.replicate (hi - lo) 0)
  rw [foldlM_set_within _ _ (List.length_replicate ..), Chunks.writes_in_range] at hloop
  exact hloop

theorem dense_ok (hn : p.n * 8 < 2 ^ 63) (hidx : unb64 p.idx = some idx) (hval : unb64 p.val = some val)
    (hlen : idx.length / 4 = val.length / 4) (hin : ∀ i ∈ words idx, i.toNat < p.n) : ∃ b, p.dense = .ok b ∧
      b.vals = (List.range p.n).map (at_coord (Payload.last_writes (Payload.entries idx val))) := by
  have hentries := (mem_entries_iff hlen fun i => i.toNat < p.n).mpr hin
  have hbelow : ∀ c ∈ Payload.entries idx val, c.1.toNat < (DenseBody.zeros p.n).vals.length := by
    intro c hc
    exact (hentries c hc).trans_eq (List.length_replicate ..).symm
  obtain ⟨b, hb, hvals⟩ := foldlM_write hbelow
  refine ⟨b, (dense_eq hn hidx hval hlen).trans hb, ?_⟩
  have hall : (Payload.entries idx val).filter (fun c => decide (0 ≤ c.1.toNat ∧ c.1.toNat < p.n)) =
      Payload.entries idx val := List.filter_eq_self.mpr fun c hc => by simpa using hentries c hc
  have hwrites := Chunks.writes_in_range (Payload.entries idx val) 0 p.n
  rw [hall] at hwrites
  simp only [Nat.sub_zero, Nat.zero_add] at hwrites
  rw [hvals]
  exact hwrites

theorem slice_map_range {α : Type} (f : Nat → α) {n lo hi : Nat} (h : hi ≤ n) :
    slice ((List.range n).map f) lo hi = (List.range (hi - lo)).map fun j => f (lo + j) := by
  apply List.ext_getElem?
  intro j
  unfold slice
  by_cases hj : j < hi - lo
  · have hin : lo + j < n := by omega
    simp [hj, hin]
  · simp [hj]

/-- A count of values other than the count of indices: `coords` rejects and `dense` panics. -/
theorem uneven (hn : p.n * 8 < 2 ^ 63) (hidx : unb64 p.idx = some idx) (hval : unb64 p.val = some val)
    (hne : idx.length / 4 ≠ val.length / 4) : p.run_coords = .error (.reject ()) ∧ p.dense = .error .panic := by
  unfold Payload.run_coords Payload.dense decompress alloc
  rw [hidx, hval, if_pos hn]
  constructor
  · change (if idx.length / 4 ≠ val.length / 4 then _ else _) = _
    rw [if_pos hne]
  · change (if val.length / 4 ≠ idx.length / 4 then _ else _) = _
    rw [if_pos hne.symm]

/-- What is not base64 is rejected by all decoders alike. -/
theorem reject_of_undecoded (h : ¬ ∃ idx val, unb64 p.idx = some idx ∧ unb64 p.val = some val) :
    p.dense = .error (.reject ()) ∧ p.run_coords = .error (.reject ()) ∧ p.coords = none := by
  unfold Payload.dense Payload.run_coords Payload.coords
  cases hidx : unb64 p.idx with
  | none => exact ⟨rfl, rfl, rfl⟩
  | some idx =>
    cases hval : unb64 p.val with
    | none => exact ⟨rfl, rfl, rfl⟩
    | some val => exact absurd ⟨idx, val, hidx, hval⟩ h

end Specs

variable [Crypto]

theorem WellStated.coherent {p : Payload} (h : WellStated p) : Coherent p := by
  obtain ⟨hn, hstated⟩ := h
  have hrange (lo hi : Nat) (hle : hi ≤ p.n) : (hi - lo) * 8 < 2 ^ 63 := by omega
  by_cases hdec : ∃ idx val, unb64 p.idx = some idx ∧ unb64 p.val = some val
  · obtain ⟨idx, val, hidx, hval⟩ := hdec
    obtain ⟨hlen, hin⟩ := hstated idx val hidx hval
    have hcoords := run_coords_eq hidx hval hlen hin
    obtain ⟨b, hb, hvals⟩ := dense_ok hn hidx hval hlen hin
    have hvalues : b.vals = densify p.n
        ((Payload.last_writes (Payload.entries idx val)).toList.filter fun c => c.2 ≠ 0) := by
      rw [hvals]
      exact List.map_congr_left fun j _ => (Chunks.value_at_nonzero _ j).symm
    constructor
    · rw [hcoords]
      exact fun h => by cases h
    · rw [hb]
      exact fun h => by cases h
    · intro lo hi _ hle
      rw [run_dense_range_eq (hrange lo hi hle) hidx hval hlen]
      exact fun h => by cases h
    · exact ⟨fun _ => ⟨_, hcoords⟩, fun _ => ⟨b, hb⟩⟩
    · intro b' cs hb' hcs
      rw [hb] at hb'
      rw [hcoords] at hcs
      obtain rfl := Except.ok.inj hb'
      obtain rfl := Except.ok.inj hcs
      exact hvalues
    · intro b' cs hb' _ lo hi _ hle
      rw [hb] at hb'
      obtain rfl := Except.ok.inj hb'
      rw [run_dense_range_eq (hrange lo hi hle) hidx hval hlen, hvals, slice_map_range _ hle]
    · intro b' cs hb' hcs
      rw [hb] at hb'
      rw [hcoords] at hcs
      obtain rfl := Except.ok.inj hb'
      obtain rfl := Except.ok.inj hcs
      have hsome := coords_eq hidx hval hlen hin
      unfold delta_hash_sparse delta_hash
      rw [sparse_image_eq (Payload.coords_sorted hsome) (fun _ _ => Nat.zero_le _) (Payload.coords_in_range hsome), hvalues,
        Nat.sub_zero, ← List.range_eq_range']
      rfl
  · have hreject := reject_of_undecoded hdec
    have hzeros (lo hi : Nat) (hle : hi ≤ p.n) : p.run_dense_range lo hi = .ok (List.replicate (hi - lo) 0) := by
      unfold Payload.run_dense_range alloc
      rw [if_pos (hrange lo hi hle)]
      cases hidx : unb64 p.idx with
      | none => rfl
      | some idx =>
        cases hval : unb64 p.val with
        | none => rfl
        | some val => exact absurd ⟨idx, val, hidx, hval⟩ hdec
    have hnone (b : DenseBody) : p.dense ≠ .ok b := by
      rw [hreject.1]
      exact fun h => by cases h
    constructor
    · rw [hreject.2.1]
      exact fun h => by cases h
    · rw [hreject.1]
      exact fun h => by cases h
    · intro lo hi _ hle
      rw [hzeros lo hi hle]
      exact fun h => by cases h
    · rw [hreject.1, hreject.2.1]
      constructor
      · rintro ⟨b, hb⟩
        cases hb
      · rintro ⟨cs, hcs⟩
        cases hcs
    · exact fun b _ hb => absurd hb (hnone b)
    · exact fun b _ hb => absurd hb (hnone b)
    · exact fun b _ hb => absurd hb (hnone b)

/-- The decoders agree on a payload, and none panics, if and only if it is well stated. -/
theorem coherent_iff (p : Payload) : Coherent p ↔ WellStated p := by
  refine ⟨fun h => ?_, WellStated.coherent⟩
  have hn : p.n * 8 < 2 ^ 63 := by
    by_contra hbig
    refine h.range 0 p.n (Nat.zero_le _) le_rfl ?_
    unfold Payload.run_dense_range alloc
    rw [Nat.sub_zero, if_neg hbig]
    rfl
  refine ⟨hn, fun idx val hidx hval => ?_⟩
  have hlen : idx.length / 4 = val.length / 4 := by
    by_contra hne
    exact h.dense (uneven hn hidx hval hne).2
  refine ⟨hlen, (mem_entries_iff hlen fun i => i.toNat < p.n).mp fun c hc => ?_⟩
  by_contra hbig
  refine h.dense ((dense_eq hn hidx hval hlen).trans (foldlM_write_panic ⟨c, hc, ?_⟩))
  exact (List.length_replicate ..).trans_le (Nat.not_lt.mp hbig)

/-! ## Stored blocks -/

omit [Crypto] in
theorem body_of_coords {p : Payload} {cs : List (UInt32 × Int64)} (h : p.coords = some cs) :
    ∃ s, p.body = some s ∧ s.n = p.n ∧ s.coords = cs := by
  cases hbody : p.body with
  | none =>
    unfold Payload.body at hbody
    split at hbody
    · rename_i hnone
      rw [hnone] at h
      cases h
    · cases hbody
  | some s =>
    obtain ⟨hn, hcs⟩ := Payload.body_eq_some hbody
    exact ⟨s, rfl, hn, Option.some.inj (hcs.symm.trans h)⟩

omit [Crypto] in
theorem body_of_no_coords {p : Payload} (h : p.coords = none) : p.body = none := by
  cases hbody : p.body with
  | none => rfl
  | some s =>
    rw [(Payload.body_eq_some hbody).2] at h
    cases h

omit [Crypto] in
/-- The dense and the sparse body of a well-stated payload, or neither. -/
theorem WellStated.bodies {p : Payload} (h : WellStated p) : p.dense = .error (.reject ()) ∧ p.body = none ∨
    ∃ b s, p.dense = .ok b ∧ p.body = some s ∧ b.vals = densify s.n s.coords := by
  by_cases hdec : ∃ idx val, unb64 p.idx = some idx ∧ unb64 p.val = some val
  · obtain ⟨idx, val, hidx, hval⟩ := hdec
    obtain ⟨hlen, hin⟩ := h.2 idx val hidx hval
    obtain ⟨b, hb, hvals⟩ := dense_ok h.1 hidx hval hlen hin
    obtain ⟨s, hs, hn, hcs⟩ := body_of_coords (coords_eq hidx hval hlen hin)
    refine .inr ⟨b, s, hb, hs, ?_⟩
    rw [hvals, hn, hcs]
    exact List.map_congr_left fun j _ => (Chunks.value_at_nonzero _ j).symm
  · obtain ⟨hdense, -, hcoords⟩ := reject_of_undecoded hdec
    exact .inl ⟨hdense, body_of_no_coords hcoords⟩

/-- The dense bodies are the sparse bodies written out. -/
def SameBodies (bodies : Dict DenseBody) (sparse : Dict SparseBody) : Prop :=
  ∀ ptr : String, bodies[ptr]?.map (·.vals) = sparse[ptr]?.map fun s => densify s.n s.coords

omit [Crypto] in
theorem SameBodies.insert {bodies : Dict DenseBody} {sparse : Dict SparseBody} (h : SameBodies bodies sparse) (ptr : String)
    {b : DenseBody} {s : SparseBody} (hb : b.vals = densify s.n s.coords) :
    SameBodies (bodies.insert ptr b) (sparse.insert ptr s) := by
  intro k
  rw [SumMap.get_insert, SumMap.get_insert]
  split
  · rw [Option.map_some, Option.map_some, hb]
  · exact h k

/-- Both readings of one transaction and its body, or neither. -/
theorem densify_one {payloads : Dict Payload} (hp : ∀ (id : String) p, payloads[id]? = some p → WellStated p)
    (wt : WireDeltaTx) (txs₀ : List BackpropTx) (bodies : Dict DenseBody) (sparse : Dict SparseBody) :
    (∃ t b s, wt.to_core = some t ∧ b.vals = densify s.n s.coords ∧
      StoredBlock.densify_tx payloads (txs₀, bodies) wt = .ok (txs₀ ++ [t], bodies.insert t.da_pointer b) ∧
      StoredBlock.insert_body payloads sparse t = some (sparse.insert t.da_pointer s)) ∨
    (∀ t, wt.to_core = some t → StoredBlock.insert_body payloads sparse t = none) ∧
      StoredBlock.densify_tx payloads (txs₀, bodies) wt = .error (.reject ()) := by
  cases ht : wt.to_core with
  | none =>
    refine .inr ⟨(fun t he => by cases he), ?_⟩
    unfold StoredBlock.densify_tx
    rw [ht]
    rfl
  | some t =>
    have hinsert : StoredBlock.insert_body payloads sparse t =
        payloads[t.txid]?.bind fun p => p.body.bind fun s => some (sparse.insert t.da_pointer s) := rfl
    have hrun : StoredBlock.densify_tx payloads (txs₀, bodies) wt = (do
        let p ← or_none payloads[t.txid]?
        let b ← p.dense
        pure (txs₀ ++ [t], bodies.insert t.da_pointer b)) := by
      unfold StoredBlock.densify_tx
      rw [ht]
      rfl
    cases hpt : payloads[t.txid]? with
    | none =>
      rw [hpt] at hinsert hrun
      exact .inr ⟨fun t' he => Option.some.inj he ▸ hinsert, hrun⟩
    | some p =>
      rw [hpt, Option.bind_some] at hinsert
      rw [hpt] at hrun
      rcases (hp _ p hpt).bodies with ⟨hdense, hbody⟩ | ⟨b, s, hdense, hbody, hsame⟩
      · rw [hbody] at hinsert
        refine .inr ⟨fun t' he => Option.some.inj he ▸ hinsert, hrun.trans ?_⟩
        change p.dense >>= _ = _
        rw [hdense]
        rfl
      · rw [hbody] at hinsert
        refine .inl ⟨t, b, s, rfl, hsame, hrun.trans ?_, hinsert⟩
        change p.dense >>= _ = _
        rw [hdense]
        rfl

/-- Both readings of the transactions of a stored block, or neither. -/
theorem densify_txs {payloads : Dict Payload} (hp : ∀ (id : String) p, payloads[id]? = some p → WellStated p)
    (wts : List WireDeltaTx) (txs₀ : List BackpropTx) {bodies : Dict DenseBody} {sparse : Dict SparseBody}
    (h : SameBodies bodies sparse) :
    (∃ txs sparse' bodies', wts.mapM WireDeltaTx.to_core = some txs ∧
      txs.foldlM (StoredBlock.insert_body payloads) sparse = some sparse' ∧
      wts.foldlM (StoredBlock.densify_tx payloads) (txs₀, bodies) = .ok (txs₀ ++ txs, bodies') ∧
      SameBodies bodies' sparse') ∨
    (∀ txs, wts.mapM WireDeltaTx.to_core = some txs → txs.foldlM (StoredBlock.insert_body payloads) sparse = none) ∧
      wts.foldlM (StoredBlock.densify_tx payloads) (txs₀, bodies) = .error (.reject ()) := by
  induction wts generalizing txs₀ bodies sparse with
  | nil => exact .inl ⟨[], sparse, bodies, rfl, rfl, by rw [List.append_nil]; rfl, h⟩
  | cons wt wts ih =>
    have hhead (txs : List BackpropTx) (htxs : (wt :: wts).mapM WireDeltaTx.to_core = some txs) :
        ∃ t ts, wt.to_core = some t ∧ wts.mapM WireDeltaTx.to_core = some ts ∧ txs = t :: ts := by
      simp only [List.mapM_cons, Option.bind_eq_bind, Option.bind_eq_some_iff, Option.pure_def, Option.some.injEq] at htxs
      obtain ⟨t, ht, ts, hts, he⟩ := htxs
      exact ⟨t, ts, ht, hts, he.symm⟩
    rw [List.foldlM_cons]
    rcases densify_one hp wt txs₀ bodies sparse with ⟨t, b, s, ht, hsame, hrun, hinsert⟩ | ⟨hnone, hrun⟩
    · rw [hrun]
      rcases ih (txs₀ ++ [t]) (h.insert t.da_pointer hsame) with ⟨txs, sparse', bodies', hm, hf, hd, hs⟩ | ⟨hnone, hd⟩
      · refine .inl ⟨t :: txs, sparse', bodies', ?_, ?_, ?_, hs⟩
        · rw [List.mapM_cons, ht, hm]
          rfl
        · rw [List.foldlM_cons, hinsert]
          exact hf
        · rw [List.append_cons txs₀ t txs]
          exact hd
      · refine .inr ⟨fun txs htxs => ?_, hd⟩
        obtain ⟨t', ts, ht', hts, rfl⟩ := hhead txs htxs
        obtain rfl := Option.some.inj (ht.symm.trans ht')
        rw [List.foldlM_cons, hinsert]
        exact hnone ts hts
    · refine .inr ⟨fun txs htxs => ?_, ?_⟩
      · obtain ⟨t, ts, ht, -, rfl⟩ := hhead txs htxs
        rw [List.foldlM_cons, hnone t ht]
        rfl
      · rw [hrun]
        rfl

/-- A restart and a live node read one block from a stored block, or none. -/
structure SameBlock (sb : StoredBlock) (payloads : Dict Payload) : Prop where
  accepts : ∀ b, sb.to_core_sparse payloads = some b → ∃ bodies, sb.to_core payloads = .ok { b with bodies, sparse := ∅ } ∧
    SameBodies bodies b.sparse
  rejects : sb.to_core_sparse payloads = none → sb.to_core payloads = .error (.reject ())

theorem same_block {payloads : Dict Payload} (hp : ∀ (id : String) p, payloads[id]? = some p → WellStated p)
    (sb : StoredBlock) : SameBlock sb payloads := by
  have hempty : SameBodies ∅ ∅ := fun ptr => by simp
  have hread (bodies : Dict DenseBody) (txs : List BackpropTx)
      (htxs : sb.txs.foldlM (StoredBlock.densify_tx payloads) ([], ∅) = .ok (txs, bodies)) : sb.to_core payloads =
      (or_none (sb.transfers.mapM StoredBlock.as_transfer) >>= fun transfers =>
        or_none (sb.data_txs.mapM account_tx_from_json) >>= fun data_txs =>
        pure {
          header := sb.header, txs, bodies, sparse := ∅, transfers, data_txs, scores := sb.scores
          sketches := sb.sketches, witness_leaves := sb.page_leaves.map StoredBlock.witness_leaf }) := by
    unfold StoredBlock.to_core
    rw [htxs]
    rfl
  rcases densify_txs hp sb.txs [] hempty with ⟨txs, sparse, bodies, hm, hf, hd, hs⟩ | ⟨hnone, hd⟩
  · rw [List.nil_append] at hd
    constructor
    · intro b hb
      rw [hread bodies txs hd]
      simp only [StoredBlock.to_core_sparse, hm, hf, Option.bind_eq_bind, Option.bind_some, Option.bind_eq_some_iff] at hb
      obtain ⟨transfers, htransfers, data_txs, hdata, hb⟩ := hb
      obtain rfl := Option.some.inj hb
      rw [htransfers, hdata]
      exact ⟨bodies, rfl, hs⟩
    · intro hb
      rw [hread bodies txs hd]
      simp only [StoredBlock.to_core_sparse, hm, hf, Option.bind_eq_bind, Option.bind_some] at hb
      cases htransfers : sb.transfers.mapM StoredBlock.as_transfer with
      | none => rfl
      | some transfers =>
        cases hdata : sb.data_txs.mapM account_tx_from_json with
        | none => rfl
        | some data_txs =>
          rw [htransfers, hdata] at hb
          cases hb
  · have hreject : sb.to_core payloads = .error (.reject ()) := by
      unfold StoredBlock.to_core
      rw [hd]
      rfl
    refine ⟨fun b hb => ?_, fun _ => hreject⟩
    simp only [StoredBlock.to_core_sparse, Option.bind_eq_bind, Option.bind_eq_some_iff] at hb
    obtain ⟨txs, hm, transfers, -, data_txs, -, sparse, hf, -⟩ := hb
    rw [hnone txs hm] at hf
    cases hf

/-- The decoders agree on exactly the well-stated payloads, and where all payloads are, a restart replays the blocks that
the live node installs. -/
theorem decoders_agree_iff : (∀ p : Payload, Coherent p ↔ WellStated p) ∧
    ∀ payloads : Dict Payload, (∀ (id : String) p, payloads[id]? = some p → WellStated p) →
      ∀ sb : StoredBlock, SameBlock sb payloads :=
  ⟨coherent_iff, fun _ hp sb => same_block hp sb⟩

end Decoders

open scoped Toy
namespace Toy

/-- One index and no value. -/
def short_payload : Payload := { n := 1, idx := "AAAAAA==", val := "" }

end Toy

theorem decoders_agree_unit : Decoders.Coherent Toy.unit_payload ∧
    ∀ sb : StoredBlock, Decoders.SameBlock sb ((∅ : Dict Payload).insert "delta" Toy.unit_payload) := by
  have hunit : Decoders.WellStated Toy.unit_payload := by
    refine ⟨show 1 * 8 < 2 ^ 63 by norm_num, fun idx val hidx hval => ?_⟩
    obtain rfl : [0, 0, 0, 0] = idx := Option.some.inj ((by decide +kernel : unb64 "AAAAAA==" = some [0, 0, 0, 0]).symm.trans hidx)
    obtain rfl : [1, 0, 0, 0] = val := Option.some.inj ((by decide +kernel : unb64 "AQAAAA==" = some [1, 0, 0, 0]).symm.trans hval)
    refine ⟨rfl, fun i hi => ?_⟩
    have hword : words [0, 0, 0, 0] = [0] := rfl
    rw [hword, List.mem_singleton] at hi
    rw [hi]
    exact Nat.one_pos
  refine ⟨(Decoders.decoders_agree_iff.1 _).mpr hunit, Decoders.decoders_agree_iff.2 _ fun id p hp => ?_⟩
  rw [SumMap.get_insert] at hp
  split at hp
  · rw [← Option.some.inj hp]
    exact hunit
  · simp at hp

/-- A payload with an index and no value is not decoded: `coords` rejects it and `dense` panics. -/
theorem short_payload_panics : Toy.short_payload.run_coords = .error (.reject ()) ∧
    Toy.short_payload.dense = .error .panic ∧ ¬ Decoders.Coherent Toy.short_payload := by
  have hidx : unb64 Toy.short_payload.idx = some [0, 0, 0, 0] := by decide +kernel
  have hval : unb64 Toy.short_payload.val = some [] := by decide +kernel
  obtain ⟨hcoords, hdense⟩ := Decoders.uneven (show 1 * 8 < 2 ^ 63 by norm_num) hidx hval (by decide)
  exact ⟨hcoords, hdense, fun h => h.dense hdense⟩

end Sestrian
