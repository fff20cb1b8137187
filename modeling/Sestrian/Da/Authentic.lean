import Sestrian.Code.Bytes
import Sestrian.Code.Corpus
import Sestrian.Da.Recover
import Sestrian.Tree.Branches

/-!
# What a corpus commitment pins down

Shards determine the padded chunk, a root determines its leaves, and so the commitment determines
every chunk up to the zeros that pad its last row.
-/

namespace Sestrian

/-! ## Shards and roots -/

namespace da

/-- The first `k` shards of a body. -/
def first_shards (body : List UInt8) (k : Nat) : List (Nat × List UInt8) :=
  (List.range k).map fun i => (i, combine_rows (vandermonde_row k i) (rows body k))

theorem exists_inverse (body : List UInt8) {k : Nat} (hk : 0 < k) (hn : k ≤ 255) :
    ∃ inv, mat_inv ((first_shards body k).map fun c => vandermonde_row k c.1) = some inv ∧
      inv.map (fun row => combine_rows row ((first_shards body k).map (·.2))) = rows body k := by
  have hmem : ∀ c ∈ first_shards body k, c.1 < k ∧ c.2 = combine_rows (vandermonde_row k c.1) (rows body k) := by
    intro c hc
    obtain ⟨i, hi, rfl⟩ := List.mem_map.mp hc
    exact ⟨List.mem_range.mp hi, rfl⟩
  have hplaces : (first_shards body k).map (·.1) = List.range k := by
    unfold first_shards
    rw [List.map_map]
    exact List.map_id _
  refine combine_inverse hk (by rw [first_shards, List.length_map, List.length_range]) (hplaces ▸ List.nodup_range)
    (fun c hc => lt_of_lt_of_le (hmem c hc).1 hn) fun c hc => (hmem c hc).2

/-- Two bodies have the same shards exactly when they are padded to the same bytes. -/
theorem encode_eq_iff {x y : List UInt8} {k n : Nat} (hk : 0 < k) (hkn : k ≤ n) (hn : n ≤ 255) :
    encode x k n = encode y k n ↔ padded x k = padded y k := by
  constructor
  · intro h
    have hshard (i : Nat) (hi : i < k) :
        combine_rows (vandermonde_row k i) (rows x k) = combine_rows (vandermonde_row k i) (rows y k) :=
      List.map_inj_left.mp h i (List.mem_range.mpr (lt_of_lt_of_le hi hkn))
    have hsame : first_shards x k = first_shards y k :=
      List.map_inj_left.mpr fun i hi => by rw [hshard i (List.mem_range.mp hi)]
    obtain ⟨inv, hinv, hx⟩ := exists_inverse x hk (hkn.trans hn)
    obtain ⟨inv', hinv', hy⟩ := exists_inverse y hk (hkn.trans hn)
    rw [hsame, hinv'] at hinv
    obtain rfl := Option.some.inj hinv
    rw [hsame, hy] at hx
    rw [← flatten_rows x hk, ← flatten_rows y hk, hx]
  · intro h
    have hrows : rows x k = rows y k := by rw [rows_eq, rows_eq, h]
    unfold encode
    rw [hrows]

end da

namespace merkle

variable [Crypto]

/-- The strings that the root of `leaves` hashes. -/
def hashed (leaves : List (List UInt8)) : List (List UInt8) :=
  leaves.map (0x00 :: ·) ++
    (PairTree.tree_pairs node_hash leaves.length (leaves.map leaf_hash)).map fun p => 0x01 :: (p.1.val ++ p.2.val)

/-- No two different strings of the two trees have one hash. -/
def Apart (x y : List (List UInt8)) : Prop := ∀ a ∈ hashed x, ∀ b ∈ hashed y, sha256 a = sha256 b → a = b

theorem root_inj {x y : List (List UInt8)} (hlen : x.length = y.length) (h : Apart x y) (hroot : root x = root y) : x = y := by
  unfold root root_from_hashes at hroot
  rw [fold_levels_eq, fold_levels_eq, List.length_map, List.length_map, ← hlen] at hroot
  unfold Apart hashed at h
  rw [← hlen] at h
  have hleaves : x.map leaf_hash = y.map leaf_hash := by
    refine PairTree.eq_of_top (by rw [List.length_map]) (by rw [List.length_map, List.length_map, hlen])
      (fun p hp q hq he => ?_) hroot
    have hbytes := h _ (List.mem_append_right _ (List.mem_map.mpr ⟨p, hp, rfl⟩)) _
      (List.mem_append_right _ (List.mem_map.mpr ⟨q, hq, rfl⟩)) he
    obtain ⟨h₁, h₂⟩ := List.append_inj (List.cons.inj hbytes).2 (p.1.2.trans q.1.2.symm)
    exact Prod.ext (Subtype.ext h₁) (Subtype.ext h₂)
  refine PairTree.eq_of_map_eq (fun a ha b hb he => ?_) hleaves
  exact (List.cons.inj (h _ (List.mem_append_left _ (List.mem_map.mpr ⟨a, ha, rfl⟩)) _
    (List.mem_append_left _ (List.mem_map.mpr ⟨b, hb, rfl⟩)) he)).2

end merkle

namespace corpus

/-! ## Slices -/

/-- The corpus in slices of `CHUNK_BYTES`. -/
def slices (corpus : List UInt8) : List (List UInt8) :=
  (List.range ((corpus.length + (CHUNK_BYTES - 1)) / CHUNK_BYTES)).map fun i =>
    slice corpus (i * CHUNK_BYTES) ((i + 1) * CHUNK_BYTES)

theorem chunk_bytes_pos : 0 < CHUNK_BYTES := by decide

theorem count_cons {c n : Nat} (hc : 0 < c) (hn : 0 < n) : (n + (c - 1)) / c = (n - c + (c - 1)) / c + 1 := by
  by_cases hle : c ≤ n
  · have hsum : n + (c - 1) = n - c + (c - 1) + c := by omega
    rw [hsum, Nat.add_div_right _ hc]
  · have hone : (n + (c - 1)) / c = 1 := by
      have hsum : n + (c - 1) = n - 1 + c := by omega
      rw [hsum, Nat.add_div_right _ hc, Nat.div_eq_of_lt (by omega)]
    have hzero : (n - c + (c - 1)) / c = 0 := Nat.div_eq_of_lt (by omega)
    rw [hone, hzero]

theorem slices_nil : slices [] = [] := by
  have hz : (([] : List UInt8).length + (CHUNK_BYTES - 1)) / CHUNK_BYTES = 0 := by
    rw [List.length_nil, Nat.zero_add]
    exact Nat.div_eq_of_lt (Nat.sub_lt chunk_bytes_pos Nat.one_pos)
  unfold slices
  rw [hz]
  rfl

theorem cut_cons {c : Nat} (hc : 0 < c) {l : List UInt8} (h : l ≠ []) :
    (List.range ((l.length + (c - 1)) / c)).map (fun i => slice l (i * c) ((i + 1) * c)) =
      l.take c :: (List.range (((l.drop c).length + (c - 1)) / c)).map fun i => slice (l.drop c) (i * c) ((i + 1) * c) := by
  rw [List.length_drop, count_cons hc (List.length_pos_iff.mpr h), List.range_succ_eq_map, List.map_cons, List.map_map]
  refine congrArg₂ List.cons ?_ (List.map_congr_left fun i _ => ?_)
  · unfold slice
    rw [Nat.zero_mul, List.drop_zero, Nat.zero_add, Nat.one_mul, Nat.sub_zero]
  · have hstart : (i + 1) * c = c + i * c := by rw [Nat.succ_mul, Nat.add_comm]
    have hstop : (i + 1 + 1) * c - (i + 1) * c = (i + 1) * c - i * c := by
      rw [Nat.succ_mul (i + 1), Nat.succ_mul i, Nat.add_sub_cancel_left, Nat.add_sub_cancel_left]
    change slice l ((i + 1) * c) ((i + 1 + 1) * c) = _
    unfold slice
    rw [hstop, List.drop_drop, hstart]

theorem slices_cons {corpus : List UInt8} (h : corpus ≠ []) :
    slices corpus = corpus.take CHUNK_BYTES :: slices (corpus.drop CHUNK_BYTES) := cut_cons chunk_bytes_pos h

variable [Crypto]

/-- What the corpus commits to, however it is read. -/
def committed (corpus : List UInt8) : CorpusManifest :=
  manifest corpus (UInt64.ofNat corpus.length) ((slices corpus).map chunk_root)

/-! ## Reading in pieces -/

/-- The reader brings what is left, in pieces of any length. -/
def Serves {σ : Type} (r : Reader σ) (content : σ → List UInt8) : Prop :=
  ∀ s m, 0 < m → ∃ piece s', r.read s m = .ok (piece, s') ∧ piece.length ≤ m ∧ content s = piece ++ content s' ∧
    (piece = [] → content s = [])

section Reading

variable {σ : Type} {r : Reader σ} {content : σ → List UInt8}

omit [Crypto] in
theorem fill_spec (h : Serves r content) {rounds : Nat} {s : σ} {buf : List UInt8} (hbuf : buf.length ≤ CHUNK_BYTES)
    (hrounds : CHUNK_BYTES - buf.length ≤ rounds) :
    ∃ s', fill r rounds s buf = .ok (buf ++ (content s).take (CHUNK_BYTES - buf.length), s') ∧
      content s' = (content s).drop (CHUNK_BYTES - buf.length) := by
  induction rounds generalizing s buf with
  | zero =>
    rw [Nat.le_zero.mp hrounds, List.take_zero, List.append_nil, List.drop_zero]
    exact ⟨s, rfl, rfl⟩
  | succ rounds ih =>
    unfold fill
    by_cases hlt : buf.length < CHUNK_BYTES
    · obtain ⟨piece, s', hread, hle, hcontent, hend⟩ := h s (CHUNK_BYTES - buf.length) (Nat.sub_pos_of_lt hlt)
      rw [if_pos hlt, hread]
      dsimp only
      by_cases hz : piece.length = 0
      · have hpiece : piece = [] := List.eq_nil_of_length_eq_zero hz
        have hs := hend hpiece
        rw [hpiece, List.nil_append, hs] at hcontent
        rw [if_pos hz, hs, List.take_nil, List.append_nil, List.drop_nil]
        exact ⟨s', rfl, hcontent.symm⟩
      · have hlen : (buf ++ piece).length = buf.length + piece.length := List.length_append
        obtain ⟨s'', hfill, hrest⟩ := @ih s' (buf ++ piece) (by omega) (by omega)
        have hleft : CHUNK_BYTES - (buf ++ piece).length = CHUNK_BYTES - buf.length - piece.length := by omega
        rw [hleft] at hfill hrest
        rw [if_neg hz, hfill, hcontent, List.take_append, List.drop_append, List.take_of_length_le hle,
          List.drop_eq_nil_of_le hle, List.nil_append, List.append_assoc]
        exact ⟨s'', rfl, hrest⟩
    · have hfull : CHUNK_BYTES - buf.length = 0 := by omega
      rw [if_neg hlt, hfull, List.take_zero, List.append_nil, List.drop_zero]
      exact ⟨s, rfl, rfl⟩

theorem build_from_spec (h : Serves r content) {fuel : Nat} {s : σ} (hfuel : (content s).length / CHUNK_BYTES < fuel)
    (seen : List UInt8) (size : UInt64) (roots : List (List UInt8)) :
    build_from r fuel s seen size roots =
      some (.ok (manifest (seen ++ content s) (size + UInt64.ofNat (content s).length)
        (roots ++ (slices (content s)).map chunk_root))) := by
  induction fuel generalizing s seen size roots with
  | zero => exact absurd hfuel (Nat.not_lt_zero _)
  | succ fuel ih =>
    have hempty : ([] : List UInt8).length ≤ CHUNK_BYTES := Nat.zero_le _
    obtain ⟨s', hfill, hrest⟩ := fill_spec h (s := s) hempty (Nat.sub_le _ _)
    rw [List.length_nil, Nat.sub_zero] at hfill hrest
    rw [List.nil_append] at hfill
    unfold build_from
    rw [hfill]
    dsimp only
    have hpos := chunk_bytes_pos
    have hlen : ((content s).take CHUNK_BYTES).length = min CHUNK_BYTES (content s).length := List.length_take
    by_cases hz : content s = []
    · rw [hz, List.take_nil, if_pos List.length_nil, slices_nil, List.append_nil, List.map_nil, List.append_nil]
      exact congrArg (fun n => some (Except.ok (manifest seen n roots))) (UInt64.add_zero size).symm
    have hcontent := List.length_pos_iff.mpr hz
    rw [if_neg (by omega), slices_cons hz, List.map_cons]
    by_cases hshort : (content s).length < CHUNK_BYTES
    · have htake : (content s).take CHUNK_BYTES = content s := List.take_of_length_le (Nat.le_of_lt hshort)
      have hdrop : (content s).drop CHUNK_BYTES = [] := List.drop_eq_nil_of_le (Nat.le_of_lt hshort)
      rw [htake, if_pos hshort, hdrop, slices_nil, List.map_nil]
    · have hdiv : (content s').length / CHUNK_BYTES < fuel := by
        have hnext := Nat.div_eq_sub_div chunk_bytes_pos (Nat.le_of_not_lt hshort)
        rw [hrest, List.length_drop]
        omega
      rw [if_neg (by omega), ih hdiv, hrest, List.append_assoc, List.take_append_drop, List.append_assoc,
        List.singleton_append, UInt64.add_assoc, ← UInt64.ofNat_add, ← List.length_append, List.take_append_drop]

/-- Any reader of the corpus, in whatever pieces, builds the one commitment. -/
theorem build_eq (h : Serves r content) {fuel : Nat} {s : σ} (hfuel : (content s).length / CHUNK_BYTES < fuel) :
    build r fuel s = some (.ok (committed (content s))) := by
  unfold build committed
  rw [build_from_spec h hfuel, List.nil_append, List.nil_append, UInt64.zero_add]

end Reading

/-! ## Authentic chunks -/

omit [Crypto] in
theorem count_eq {c n : Nat} (hc : 0 < c) : (n + (c - 1)) / c = if n % c > 0 then n / c + 1 else n / c := by
  have hdiv := Nat.div_add_mod n c
  have hmod := Nat.mod_lt n hc
  split
  · rename_i hpos
    have hsum : n + (c - 1) = n % c - 1 + c * (n / c + 1) := by
      rw [Nat.mul_succ]
      omega
    rw [hsum, Nat.add_mul_div_left _ _ hc, Nat.div_eq_of_lt (by omega), Nat.zero_add]
  · have hsum : n + (c - 1) = c - 1 + c * (n / c) := by omega
    rw [hsum, Nat.add_mul_div_left _ _ hc, Nat.div_eq_of_lt (by omega), Nat.zero_add]

omit [Crypto] in
theorem toNat_div_ceil (size : UInt64) {c : UInt64} (hc : 0 < c.toNat) :
    (if size % c > 0 then size / c + 1 else size / c).toNat =
      if size.toNat % c.toNat > 0 then size.toNat / c.toNat + 1 else size.toNat / c.toNat := by
  have hmod : size % c > 0 ↔ size.toNat % c.toNat > 0 := by
    rw [GT.gt, UInt64.lt_iff_toNat_lt, UInt64.toNat_mod, UInt64.toNat_zero]
  by_cases hr : size % c > 0
  · have hlt : size.toNat / c.toNat + 1 < 2 ^ 64 := by
      have hsize := size.toNat_lt
      have hrem := hmod.mp hr
      have hdiv := Nat.div_add_mod size.toNat c.toNat
      have hle := Nat.le_mul_of_pos_left (size.toNat / c.toNat) hc
      omega
    rw [if_pos hr, if_pos (hmod.mp hr), UInt64.toNat_add, UInt64.toNat_div, UInt64.toNat_one, Nat.mod_eq_of_lt hlt]
  · rw [if_neg hr, if_neg (mt hmod.mpr hr), UInt64.toNat_div]

omit [Crypto] in
theorem length_slices {corpus : List UInt8} (h : corpus.length < 2 ^ 64) :
    (slices corpus).length = (chunk_count (UInt64.ofNat corpus.length)).toNat := by
  have hc : (UInt64.ofNat CHUNK_BYTES).toNat = CHUNK_BYTES := UInt64.toNat_ofNat_of_lt' (by decide)
  have hn : (UInt64.ofNat corpus.length).toNat = corpus.length := UInt64.toNat_ofNat_of_lt' h
  have hpos := chunk_bytes_pos
  unfold slices chunk_count
  rw [List.length_map, List.length_range, count_eq hpos]
  generalize UInt64.ofNat corpus.length = size at hn
  rw [← hn]
  by_cases hz : size = 0
  · rw [if_pos hz, hz, UInt64.toNat_zero, Nat.zero_mod, Nat.zero_div, if_neg (Nat.lt_irrefl 0)]
  · rw [if_neg hz]
    dsimp only
    rw [toNat_div_ceil size (hc.symm ▸ hpos), hc]

/-- SHA-256 does not collide on what the two trees hash, of the roots and of the shards of the chunk. -/
def NoCollision (corpus chunk : List UInt8) (index : Nat) (chunk_roots : List (List UInt8)) : Prop :=
  merkle.Apart chunk_roots (committed corpus).chunk_roots ∧
    ∀ honest, (slices corpus)[index]? = some honest →
      merkle.Apart (da.encode chunk CHUNK_K CHUNK_N) (da.encode honest CHUNK_K CHUNK_N)

theorem chunk_root_inj {x y : List UInt8} (h : merkle.Apart (da.encode x CHUNK_K CHUNK_N) (da.encode y CHUNK_K CHUNK_N))
    (hroot : chunk_root x = chunk_root y) : da.padded x CHUNK_K = da.padded y CHUNK_K := by
  have hlen : (da.encode x CHUNK_K CHUNK_N).length = (da.encode y CHUNK_K CHUNK_N).length := by
    rw [da.encode, da.encode, List.length_map, List.length_map]
  exact (da.encode_eq_iff (by decide) (by decide) (by decide)).mp (merkle.root_inj hlen h (Subtype.ext hroot))

omit [Crypto] in
theorem eq_of_padded {x y : List UInt8} {k : Nat} (hlen : x.length = y.length) (h : da.padded x k = da.padded y k) : x = y := by
  rw [← da.take_padded x k, ← da.take_padded y k, h, hlen]

theorem verify_chunk_true {chunk : List UInt8} {index : Nat} {chunk_roots : List (List UInt8)} {da_root : String} :
    verify_chunk chunk index chunk_roots da_root = true ↔
      chunk_roots[index]? = some (chunk_root chunk) ∧ manifest_root chunk_roots = some da_root := by
  unfold verify_chunk
  by_cases hi : index < chunk_roots.length
  · rw [if_neg (by omega), List.getD_eq_getElem _ _ hi, List.getElem?_eq_getElem hi, Option.some.injEq]
    by_cases hc : chunk_root chunk = chunk_roots[index]
    · rw [if_neg (not_not.mpr hc)]
      cases manifest_root chunk_roots with
      | none => exact ⟨fun h => absurd h Bool.false_ne_true, fun h => absurd h.2 (by simp)⟩
      | some r =>
        dsimp only
        rw [decide_eq_true_eq, Option.some.injEq]
        exact ⟨fun h => ⟨hc.symm, h⟩, fun h => h.2⟩
    · rw [if_pos hc]
      exact ⟨fun h => absurd h Bool.false_ne_true, fun h => absurd h.1.symm hc⟩
  · rw [if_pos (by omega), List.getElem?_eq_none (by omega)]
    exact ⟨fun h => absurd h Bool.false_ne_true, fun h => absurd h.1 (by simp)⟩

/-- A reader in any pieces commits to the corpus, and under that commitment a chunk that is not the slice with
padding added or dropped is authentic exactly when the roots are the committed ones and it is the slice. -/
theorem chunk_authentic {corpus : List UInt8} (hsize : corpus.length < 2 ^ 64) :
    (∀ {σ : Type} (r : Reader σ) (content : σ → List UInt8) (s : σ) (fuel : Nat), Serves r content →
      content s = corpus → corpus.length / CHUNK_BYTES < fuel → build r fuel s = some (.ok (committed corpus))) ∧
    ∀ (chunk : List UInt8) (index : Nat) (chunk_roots : List (List UInt8)),
      chunk_roots.length = (chunk_count (committed corpus).size_bytes).toNat →
      NoCollision corpus chunk index chunk_roots →
      (∀ honest, (slices corpus)[index]? = some honest →
        chunk.length = honest.length ∨ da.padded chunk CHUNK_K ≠ da.padded honest CHUNK_K) →
      (verify_chunk chunk index chunk_roots (committed corpus).da_root = true ↔
        chunk_roots = (committed corpus).chunk_roots ∧ (slices corpus)[index]? = some chunk) := by
  refine ⟨?_, ?_⟩
  · rintro σ r content s fuel hserves rfl hfuel
    exact build_eq hserves hfuel
  intro chunk index chunk_roots hlen ⟨hroots, hshards⟩ hpad
  have hcount : chunk_roots.length = (committed corpus).chunk_roots.length :=
    hlen.trans ((length_slices hsize).symm.trans (List.length_map _).symm)
  have hda (hne : (committed corpus).chunk_roots ≠ []) :
      manifest_root (committed corpus).chunk_roots = some (committed corpus).da_root := by
    have hsome : manifest_root (committed corpus).chunk_roots = some (hex_encode (merkle.root (committed corpus).chunk_roots).val) :=
      if_neg (by rw [List.isEmpty_iff]; exact hne)
    change _ = some ((manifest_root (committed corpus).chunk_roots).getD "")
    rw [hsome, Option.getD_some]
  rw [verify_chunk_true]
  constructor
  · rintro ⟨hchunk, hmanifest⟩
    have hi := (List.getElem?_eq_some_iff.mp hchunk).1
    have hne : chunk_roots ≠ [] := List.ne_nil_of_length_pos (by omega)
    have hne' : (committed corpus).chunk_roots ≠ [] := List.ne_nil_of_length_pos (by omega)
    have hsame : chunk_roots = (committed corpus).chunk_roots := by
      refine merkle.root_inj hcount hroots ?_
      have hboth := hmanifest.trans (hda hne').symm
      unfold manifest_root at hboth
      rw [if_neg (by rw [List.isEmpty_iff]; exact hne), if_neg (by rw [List.isEmpty_iff]; exact hne')] at hboth
      exact Subtype.ext (hex_encode_inj (Option.some.inj hboth))
    refine ⟨hsame, ?_⟩
    rw [hsame] at hchunk
    change ((slices corpus).map chunk_root)[index]? = _ at hchunk
    rw [List.getElem?_map, Option.map_eq_some_iff] at hchunk
    obtain ⟨honest, hslice, hroot⟩ := hchunk
    have hpadded := chunk_root_inj (hshards honest hslice) hroot.symm
    rw [hslice, eq_of_padded ((hpad honest hslice).resolve_right (not_not.mpr hpadded)) hpadded]
  · rintro ⟨hsame, hslice⟩
    have hget : (committed corpus).chunk_roots[index]? = some (chunk_root chunk) := by
      change ((slices corpus).map chunk_root)[index]? = _
      rw [List.getElem?_map, hslice, Option.map_some]
    have hi := (List.getElem?_eq_some_iff.mp hget).1
    rw [hsame]
    exact ⟨hget, hda (List.ne_nil_of_length_pos (by omega))⟩

end corpus

open scoped Toy

namespace Toy

/-- A reader of one byte at a time. -/
def trickle : corpus.Reader (List UInt8) where
  read s _ := .ok (s.take 1, s.drop 1)

theorem trickle_serves : corpus.Serves trickle id := by
  intro s m hm
  refine ⟨s.take 1, s.drop 1, rfl, (List.length_take_le 1 s).trans hm, (List.take_append_drop 1 s).symm, fun h => ?_⟩
  cases s with
  | nil => rfl
  | cons x s => exact absurd h (List.cons_ne_nil _ _)

/-- The roots that `[1, 2, 3]` commits to. -/
def three_roots : List (List UInt8) := (corpus.committed [1, 2, 3]).chunk_roots

theorem three_slices : corpus.slices [1, 2, 3] = [[1, 2, 3]] := by
  have hle : ([1, 2, 3] : List UInt8).length ≤ corpus.CHUNK_BYTES := by decide
  rw [corpus.slices_cons (List.cons_ne_nil _ _), List.take_of_length_le hle, List.drop_eq_nil_of_le hle, corpus.slices_nil]

theorem three_shards_apart :
    merkle.Apart (da.encode [1, 2, 3] corpus.CHUNK_K corpus.CHUNK_N) (da.encode [1, 2, 3] corpus.CHUNK_K corpus.CHUNK_N) := by
  have hencode : da.encode [1, 2, 3] corpus.CHUNK_K corpus.CHUNK_N =
      [[0], [9], [8], [57], [56], [49], [48], [209], [208], [217], [216], [233]] := by decide +kernel
  rw [hencode]
  unfold merkle.Apart
  decide +kernel

theorem single_apart (x : List UInt8) : merkle.Apart [x] [x] := by
  intro a ha b hb _
  rw [List.mem_singleton.mp ha, List.mem_singleton.mp hb]

theorem three_roots_eq : three_roots = [corpus.chunk_root [1, 2, 3]] := by
  change (corpus.slices [1, 2, 3]).map corpus.chunk_root = _
  rw [three_slices]
  rfl

theorem three_count : (corpus.chunk_count (corpus.committed [1, 2, 3]).size_bytes).toNat = 1 := by decide +kernel

/-- The padding of the last row, as part of the chunk. -/
theorem padded_same_shards :
    da.encode [1, 2, 3, 0] corpus.CHUNK_K corpus.CHUNK_N = da.encode [1, 2, 3] corpus.CHUNK_K corpus.CHUNK_N :=
  (da.encode_eq_iff (by decide) (by decide) (by decide)).mpr (by decide)

theorem no_collision_three {chunk : List UInt8}
    (h : da.encode chunk corpus.CHUNK_K corpus.CHUNK_N = da.encode [1, 2, 3] corpus.CHUNK_K corpus.CHUNK_N) :
    corpus.NoCollision [1, 2, 3] chunk 0 three_roots := by
  refine ⟨?_, fun honest hslice => ?_⟩
  · change merkle.Apart three_roots three_roots
    rw [three_roots_eq]
    exact single_apart _
  · rw [three_slices] at hslice
    obtain rfl := Option.some.inj hslice
    rw [h]
    exact three_shards_apart

end Toy

theorem chunk_authentic_three :
    corpus.build Toy.trickle 1 [1, 2, 3] = some (.ok (corpus.committed [1, 2, 3])) ∧
      corpus.verify_chunk [1, 2, 3] 0 Toy.three_roots (corpus.committed [1, 2, 3]).da_root = true := by
  obtain ⟨hbuild, hverify⟩ := @corpus.chunk_authentic _ [1, 2, 3] (by decide)
  refine ⟨hbuild Toy.trickle id _ 1 Toy.trickle_serves rfl (by decide), ?_⟩
  have hlen : Toy.three_roots.length = (corpus.chunk_count (corpus.committed [1, 2, 3]).size_bytes).toNat := by
    rw [Toy.three_roots_eq, Toy.three_count]
    rfl
  refine (hverify _ 0 _ hlen (Toy.no_collision_three rfl) fun honest hslice => ?_).mpr ⟨rfl, ?_⟩
  · rw [Toy.three_slices] at hslice
    obtain rfl := Option.some.inj hslice
    exact .inl rfl
  · rw [Toy.three_slices]
    rfl

/-- A list that is not the committed one makes the slice itself fail, and the committed list accepts the slice with
the zero that pads it. -/
theorem slice_fails_padding_passes :
    ((corpus.slices [1, 2, 3])[0]? = some [1, 2, 3] ∧
      ([[]] : List (List UInt8)).length = (corpus.chunk_count (corpus.committed [1, 2, 3]).size_bytes).toNat ∧
      corpus.NoCollision [1, 2, 3] [1, 2, 3] 0 [[]] ∧
      corpus.verify_chunk [1, 2, 3] 0 [[]] (corpus.committed [1, 2, 3]).da_root = false) ∧
    (corpus.slices [1, 2, 3])[0]? ≠ some [1, 2, 3, 0] ∧
      Toy.three_roots.length = (corpus.chunk_count (corpus.committed [1, 2, 3]).size_bytes).toNat ∧
      corpus.NoCollision [1, 2, 3] [1, 2, 3, 0] 0 Toy.three_roots ∧
      corpus.verify_chunk [1, 2, 3, 0] 0 Toy.three_roots (corpus.committed [1, 2, 3]).da_root = true := by
  have hlong : corpus.chunk_root [1, 2, 3] ≠ [] := by
    intro h
    have hlen := (merkle.root (da.encode [1, 2, 3] corpus.CHUNK_K corpus.CHUNK_N)).2
    change (corpus.chunk_root [1, 2, 3]).length = 32 at hlen
    rw [h] at hlen
    exact absurd hlen (by decide)
  have hsame : corpus.chunk_root [1, 2, 3, 0] = corpus.chunk_root [1, 2, 3] := by
    unfold corpus.chunk_root
    rw [Toy.padded_same_shards]
  have hmanifest : corpus.manifest_root Toy.three_roots = some (corpus.committed [1, 2, 3]).da_root := by
    change _ = some ((corpus.manifest_root Toy.three_roots).getD "")
    rw [Toy.three_roots_eq]
    rfl
  refine ⟨⟨?_, Toy.three_count.symm, ⟨?_, ?_⟩, ?_⟩, ?_, ?_, Toy.no_collision_three Toy.padded_same_shards, ?_⟩
  · rw [Toy.three_slices]
    rfl
  · change merkle.Apart [[]] Toy.three_roots
    rw [Toy.three_roots_eq]
    unfold merkle.Apart
    decide +kernel
  · exact (Toy.no_collision_three rfl).2
  · rw [Bool.eq_false_iff, Ne, corpus.verify_chunk_true]
    exact fun h => hlong (Option.some.inj h.1).symm
  · rw [Toy.three_slices]
    decide
  · rw [Toy.three_roots_eq, Toy.three_count]
    rfl
  · rw [corpus.verify_chunk_true, hsame]
    refine ⟨?_, hmanifest⟩
    rw [Toy.three_roots_eq]
    rfl

end Sestrian
