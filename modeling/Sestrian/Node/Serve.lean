import Sestrian.Code.Serve
import Sestrian.Code.Bytes
import Sestrian.Lib.Carousel
import Sestrian.Lib.SumMap

/-!
# Serving shards goes around

A node that is asked for one body again and again serves its shards in a circle: each response
continues where the one before stopped, and after as many responses as there are shards all
have been served.
-/

namespace Sestrian

/-! ## Base64 -/

theorem b64_char_spec (x : Nat) (h : x < 64) : b64_val (b64_char x) = some x ∧ b64_char x ≠ 61 ∧
    String.utf8EncodeChar (Char.ofUInt8 (b64_char x)) = [b64_char x] := by
  have : ∀ x : Fin 64, b64_val (b64_char x.val) = some x.val ∧ b64_char x.val ≠ 61 ∧
      String.utf8EncodeChar (Char.ofUInt8 (b64_char x.val)) = [b64_char x.val] := by decide
  exact this ⟨x, h⟩

/-- A full group, whatever follows it. -/
theorem unb64_group {w x y z : Nat} (hw : w < 64) (hx : x < 64) (hy : y < 64) (hz : z < 64) (rest : List UInt8) :
    unb64_bytes (b64_char w :: b64_char x :: b64_char y :: b64_char z :: rest) =
      (unb64_bytes rest).map fun r => [UInt8.ofNat ((((w * 64 + x) * 64 + y) * 64 + z) / 65536),
        UInt8.ofNat ((((w * 64 + x) * 64 + y) * 64 + z) / 256), UInt8.ofNat (((w * 64 + x) * 64 + y) * 64 + z)] ++ r := by
  obtain ⟨hwv, -, -⟩ := b64_char_spec w hw
  obtain ⟨hxv, -, -⟩ := b64_char_spec x hx
  obtain ⟨hyv, hyp, -⟩ := b64_char_spec y hy
  obtain ⟨hzv, hzp, -⟩ := b64_char_spec z hz
  rw [unb64_bytes]
  simp only [hwv, hxv, hyv, hzv, hyp, hzp, Option.bind_eq_bind, Option.bind_some, and_false, if_false]
  cases unb64_bytes rest <;> rfl

theorem ofNat_of_mod {a : UInt8} {n : Nat} (h : n % 256 = a.toNat) : UInt8.ofNat n = a := by
  rw [← UInt8.toNat_inj, UInt8.toNat_ofNat', h]

/-- Base64 decodes back. -/
theorem unb64_bytes_b64 (v : List UInt8) : unb64_bytes (b64_bytes v) = some v := by
  induction v using b64_bytes.induct with
  | case1 => rfl
  | case2 a =>
    have ha := a.toNat_lt
    obtain ⟨hw, -, -⟩ := b64_char_spec (a.toNat / 4) (by omega)
    obtain ⟨hx, -, -⟩ := b64_char_spec (a.toNat % 4 * 16) (by omega)
    rw [b64_bytes, unb64_bytes]
    simp only [hw, hx, Option.bind_eq_bind, Option.bind_some, and_self, if_true]
    rw [if_pos (by omega), ofNat_of_mod (a := a) (by omega)]
  | case3 a b =>
    have ha := a.toNat_lt
    have hb := b.toNat_lt
    set y := a.toNat * 256 + b.toNat with hy
    obtain ⟨hw, -, -⟩ := b64_char_spec (y / 1024) (by omega)
    obtain ⟨hx, -, -⟩ := b64_char_spec (y / 16 % 64) (by omega)
    obtain ⟨hz, hp, -⟩ := b64_char_spec (y % 16 * 4) (by omega)
    rw [b64_bytes, unb64_bytes, ← hy]
    simp only [hw, hx, hz, hp, Option.bind_eq_bind, Option.bind_some, true_and, false_and, and_false, if_true, if_false]
    rw [if_pos (by omega), ofNat_of_mod (a := a) (by omega), ofNat_of_mod (a := b) (by omega)]
  | case4 a b c rest ih =>
    have ha := a.toNat_lt
    have hb := b.toNat_lt
    have hc := c.toNat_lt
    set z := (a.toNat * 256 + b.toNat) * 256 + c.toNat with hz
    have hjoin : ((z / 262144 * 64 + z / 4096 % 64) * 64 + z / 64 % 64) * 64 + z % 64 = z := by omega
    rw [b64_bytes, ← hz, List.cons_append, List.cons_append, List.cons_append, List.cons_append, List.nil_append]
    rw [unb64_group (by omega) (by omega) (by omega) (by omega), ih, hjoin]
    rw [Option.map_some, ofNat_of_mod (a := a) (by omega), ofNat_of_mod (a := b) (by omega),
      ofNat_of_mod (a := c) (by omega)]
    rfl

theorem b64_bytes_plain (v : List UInt8) :
    ∀ c ∈ b64_bytes v, String.utf8EncodeChar (Char.ofUInt8 c) = [c] := by
  have hpad : String.utf8EncodeChar (Char.ofUInt8 61) = [61] := by decide
  have hchar {x : Nat} (h : x < 64) := (b64_char_spec x h).2.2
  induction v using b64_bytes.induct with
  | case1 => exact fun c hc => absurd hc List.not_mem_nil
  | case2 a =>
    have ha := a.toNat_lt
    simp only [b64_bytes, List.forall_mem_cons]
    exact ⟨hchar (by omega), hchar (by omega), hpad, hpad, fun c hc => absurd hc List.not_mem_nil⟩
  | case3 a b =>
    have ha := a.toNat_lt
    have hb := b.toNat_lt
    simp only [b64_bytes, List.forall_mem_cons]
    exact ⟨hchar (by omega), hchar (by omega), hchar (by omega), hpad, fun c hc => absurd hc List.not_mem_nil⟩
  | case4 a b c rest ih =>
    have ha := a.toNat_lt
    have hb := b.toNat_lt
    have hc := c.toNat_lt
    simp only [b64_bytes, List.cons_append, List.nil_append, List.forall_mem_cons]
    exact ⟨hchar (by omega), hchar (by omega), hchar (by omega), hchar (by omega), ih⟩

theorem unb64_b64 (v : List UInt8) : unb64 (b64 v) = some v := by
  rw [unb64, b64, as_bytes_ofList, List.flatMap_map, List.flatMap_congr (b64_bytes_plain v), List.flatMap_singleton',
    unb64_bytes_b64]

/-! ## The shards of a body -/

/-- What the node can serve of a directory. -/
def held_shards (d : DaDir) : List (UInt32 × String) := d.shards.toList.map fun e => (e.1, b64 e.2)

theorem map_fst_held (d : DaDir) : (held_shards d).map Prod.fst = d.shards.keys := by
  rw [held_shards, List.map_map, ← Std.ExtTreeMap.map_fst_toList_eq_keys]
  rfl

theorem length_held (d : DaDir) : (held_shards d).length = d.shards.keys.length := by
  rw [← map_fst_held, List.length_map]

theorem nodup_held (d : DaDir) : (held_shards d).Nodup := by
  refine List.Nodup.of_map Prod.fst ?_
  rw [map_fst_held]
  exact Std.ExtTreeMap.nodup_keys

theorem mem_held {d : DaDir} {i : UInt32} {bytes : List UInt8} (h : d.shards[i]? = some bytes) :
    (i, b64 bytes) ∈ held_shards d :=
  List.mem_map_of_mem (f := fun e : UInt32 × List UInt8 => (e.1, b64 e.2))
    (Std.ExtTreeMap.mem_toList_iff_getElem?_eq_some.mpr h)

/-- A place of the circle: the index that is picked, its bytes and what is sent. -/
theorem held_at (d : DaDir) {p : Nat} (hp : p < d.shards.keys.length) :
    ∃ i bytes, d.shards.keys[p]? = some i ∧ d.shards[i]? = some bytes ∧ (held_shards d)[p]? = some (i, b64 bytes) := by
  have hlen : p < d.shards.toList.length := by
    rwa [← Std.ExtTreeMap.map_fst_toList_eq_keys, List.length_map] at hp
  refine ⟨d.shards.toList[p].1, d.shards.toList[p].2, ?_, ?_, ?_⟩
  · rw [← Std.ExtTreeMap.map_fst_toList_eq_keys, List.getElem?_map, List.getElem?_eq_getElem hlen, Option.map_some]
  · exact Std.ExtTreeMap.mem_toList_iff_getElem?_eq_some.mp (List.getElem_mem hlen)
  · rw [held_shards, List.getElem?_map, List.getElem?_eq_getElem hlen, Option.map_some]

namespace ShardServer

open Carousel

variable {budget : Nat} {d : DaDir} {txid : String}

/-! ## One response -/

/-- The loop stops at some place of the circle, and not before its first shard. -/
theorem pick_shards_spec (budget : Nat) (d : DaDir) (cur n i used : Nat) (hn : i + n ≤ d.shards.keys.length) :
    ∃ j, i ≤ j ∧ j ≤ i + n ∧ (0 < i + n → 0 < j) ∧
      (pick_shards budget d.shards.keys (fun i => d.shards[i]?) cur (List.range' i n) used
        (stretch (held_shards d) cur i)).2 = stretch (held_shards d) cur j := by
  induction n generalizing i used with
  | zero => exact ⟨i, le_rfl, le_rfl, id, rfl⟩
  | succ n ih =>
    rw [List.range'_succ, pick_shards]
    split
    · next hstop =>
      refine ⟨i, le_rfl, Nat.le_add_right _ _, fun _ => Nat.pos_of_ne_zero ?_, rfl⟩
      rintro rfl
      exact hstop.2 (stretch_zero cur)
    · obtain ⟨k, bytes, hk, hbytes, hplace⟩ := held_at d (Nat.mod_lt (cur + i) (by omega : 0 < d.shards.keys.length))
      have hnext : stretch (held_shards d) cur i ++ [(k, b64 bytes)] = stretch (held_shards d) cur (i + 1) := by
        rw [← stretch_append, stretch_one (by rw [length_held]; exact hplace)]
      obtain ⟨j, hij, hjn, hpos, hj⟩ := ih (i + 1) (used + bytes.length * 4 / 3) (by omega)
      refine ⟨j, by omega, by omega, fun _ => hpos (by omega), ?_⟩
      simp only [hk, Option.getD_some, hbytes, hnext, hj]

/-- The shards of the one body of a response. -/
def served (r : List Node.BodyShards) : List (UInt32 × String) := r.flatMap (·.shards)

/-- What is needed to serve the body at all. -/
structure Serves (budget : Nat) (s : ShardServer) (txid : String) : Prop where
  budget : 0 < budget
  honest : s.byzantine_withhold = false
  described : (s.store.dir txid).info.isSome
  held : 0 < (s.store.dir txid).shards.keys.length

/-- The server with the cursor of the body at some place. -/
def at_cursor (s : ShardServer) (txid : String) (cur : Nat) : ShardServer :=
  { s with serve_shard_cursor := s.serve_shard_cursor.insert txid cur }

/-- One request: a stretch of the circle, and the cursor past it. -/
theorem Serves.serve {s : ShardServer} (h : Serves budget s txid) : ∃ j b, 0 < j ∧ b.txid = txid ∧
    b.shards = stretch (held_shards (s.store.dir txid)) (s.serve_shard_cursor[txid]?.getD 0) j ∧
    serve_shards budget s [txid] = ([b], s.at_cursor txid
      ((s.serve_shard_cursor[txid]?.getD 0 + j) % (held_shards (s.store.dir txid)).length)) := by
  obtain ⟨m, hm⟩ := Option.isSome_iff_exists.mp h.described
  have hlen := length_held (s.store.dir txid)
  have hpos := h.held
  obtain ⟨j, -, -, hj, hpick⟩ := pick_shards_spec budget (s.store.dir txid)
    (s.serve_shard_cursor[txid]?.getD 0) (s.store.dir txid).shards.keys.length 0 0 (by omega)
  have hj := hj (by omega)
  have hheld : held_shards (s.store.dir txid) ≠ [] := List.length_pos_iff.mp (hlen ▸ hpos)
  have hlength := length_stretch hheld (s.serve_shard_cursor[txid]?.getD 0) j
  have hne : stretch (held_shards (s.store.dir txid)) (s.serve_shard_cursor[txid]?.getD 0) j ≠ [] := by
    rw [← List.length_pos_iff, hlength]
    exact hj
  rw [stretch_zero, ← List.range_eq_range'] at hpick
  refine ⟨j, ⟨txid, (UInt32.ofNat m.k).toNat, (UInt32.ofNat m.n).toNat, m.orig_len,
    stretch (held_shards (s.store.dir txid)) (s.serve_shard_cursor[txid]?.getD 0) j⟩, hj, rfl, rfl, ?_⟩
  have hkeys : s.store.list_shard_indices txid ≠ [] := List.length_pos_iff.mp hpos
  have hread : s.store.read_shard txid = fun i => (s.store.dir txid).shards[i]? := rfl
  have hbudget : ¬ 0 ≥ budget := by have := h.budget; omega
  simp only [serve_shards, h.honest, Bool.false_eq_true, if_false, List.take, List.foldl_cons, List.foldl_nil, serve_body,
    hbudget, Store.shard_meta, hm, hkeys, hread]
  simp only [Store.list_shard_indices, hpick, hne, if_false, List.nil_append, hlength, at_cursor, hlen, h.honest,
    Nat.max_eq_left hj, Nat.max_eq_left hpos]

/-! ## One response after another -/

/-- Each response has one body, at least one shard of it, and starts where the one before stopped. -/
def Continues (txid : String) (held : List (UInt32 × String)) : Nat → List (List Node.BodyShards) → Prop
  | _, [] => True
  | c, r :: rs => ∃ j b, 0 < j ∧ r = [b] ∧ b.txid = txid ∧ b.shards = stretch held c j ∧ Continues txid held (c + j) rs

/-- Only the place in the circle counts. -/
theorem Continues.congr {held : List (UInt32 × String)} {c c' : Nat} {rs : List (List Node.BodyShards)}
    (hc : c % held.length = c' % held.length) (h : Continues txid held c rs) : Continues txid held c' rs := by
  induction rs generalizing c c' with
  | nil => trivial
  | cons r rs ih =>
    obtain ⟨j, b, hj, hr, htxid, hb, hrest⟩ := h
    refine ⟨j, b, hj, hr, htxid, ?_, ih ?_ hrest⟩
    · rw [hb, ← stretch_mod c j, hc, stretch_mod]
    · rw [← Nat.mod_add_mod, hc, Nat.mod_add_mod]

theorem Serves.continues {s : ShardServer} (h : Serves budget s txid) (r : Nat) :
    Continues txid (held_shards (s.store.dir txid)) (s.serve_shard_cursor[txid]?.getD 0)
      (responses budget s (List.replicate r [txid])) := by
  induction r generalizing s with
  | zero => trivial
  | succ r ih =>
    obtain ⟨j, b, hj, htxid, hb, he⟩ := h.serve
    have hnext := ih (s := s.at_cursor txid
      ((s.serve_shard_cursor[txid]?.getD 0 + j) % (held_shards (s.store.dir txid)).length))
      ⟨h.budget, h.honest, h.described, h.held⟩
    rw [at_cursor, SumMap.get_insert, if_pos rfl] at hnext
    rw [List.replicate_succ, responses, he]
    exact ⟨j, b, hj, rfl, htxid, hb, hnext.congr (Nat.mod_mod _ _)⟩

theorem Continues.drop {held : List (UInt32 × String)} {c : Nat} {rs : List (List Node.BodyShards)}
    (h : Continues txid held c rs) (i : Nat) : ∃ c', Continues txid held c' (rs.drop i) := by
  induction i generalizing c rs with
  | zero => exact ⟨c, h⟩
  | succ i ih =>
    cases rs with
    | nil => exact ⟨0, trivial⟩
    | cons r rs =>
      obtain ⟨j, b, -, -, -, -, hrest⟩ := h
      exact ih hrest

theorem Continues.take {held : List (UInt32 × String)} {c : Nat} {rs : List (List Node.BodyShards)}
    (h : Continues txid held c rs) (n : Nat) : Continues txid held c (rs.take n) := by
  induction n generalizing c rs with
  | zero => trivial
  | succ n ih =>
    cases rs with
    | nil => trivial
    | cons r rs =>
      obtain ⟨j, b, hj, hr, htxid, hb, hrest⟩ := h
      exact ⟨j, b, hj, hr, htxid, hb, ih hrest⟩

/-- All together they serve one stretch, with at least a shard for each response. -/
theorem Continues.all_served {held : List (UInt32 × String)} {c : Nat} {rs : List (List Node.BodyShards)}
    (h : Continues txid held c rs) : ∃ n, rs.length ≤ n ∧ rs.flatMap served = stretch held c n := by
  induction rs generalizing c with
  | nil => exact ⟨0, le_rfl, rfl⟩
  | cons r rs ih =>
    obtain ⟨j, b, hj, rfl, -, hb, hrest⟩ := h
    obtain ⟨n, hn, he⟩ := ih hrest
    refine ⟨j + n, ?_, ?_⟩
    · rw [List.length_cons]
      omega
    · rw [List.flatMap_cons, he, served, List.flatMap_singleton, hb, stretch_append]

/-- Serving goes around everything in the directory. -/
structure Rotates (txid : String) (d : DaDir) (c : Nat) (rs : List (List Node.BodyShards)) : Prop where
  continues : Continues txid (held_shards d) c rs
  covers : ∀ i, i + d.shards.size ≤ rs.length → ∀ (k : UInt32) bytes, d.shards[k]? = some bytes →
    ∃ text, (k, text) ∈ ((rs.drop i).take d.shards.size).flatMap served ∧ unb64 text = some bytes
  fresh : ∀ i n, (((rs.drop i).take n).flatMap served).length ≤ d.shards.size →
    (((rs.drop i).take n).flatMap served).Nodup

theorem Continues.rotates {c : Nat} {rs : List (List Node.BodyShards)} (h : Continues txid (held_shards d) c rs)
    (hd : d.shards.size ≠ 0) : Rotates txid d c rs := by
  have hsize : (held_shards d).length = d.shards.size := by rw [length_held, Std.ExtTreeMap.length_keys]
  have hheld : held_shards d ≠ [] := fun he => hd (by rw [← hsize, he, List.length_nil])
  refine ⟨h, fun i hi k bytes hk => ?_, fun i n hlen => ?_⟩
  · obtain ⟨c', hc'⟩ := h.drop i
    obtain ⟨n, hn, he⟩ := (hc'.take d.shards.size).all_served
    rw [List.length_take, List.length_drop, Nat.min_eq_left (by omega), ← hsize] at hn
    exact ⟨_, by rw [he]; exact mem_stretch hn (mem_held hk), unb64_b64 bytes⟩
  · obtain ⟨c', hc'⟩ := h.drop i
    obtain ⟨m, -, he⟩ := (hc'.take n).all_served
    rw [he, length_stretch hheld, ← hsize] at hlen
    rw [he]
    exact nodup_stretch (nodup_held d) hlen

end ShardServer

open ShardServer

/-- A node that does not withhold serves a body of which it has the metadata and a shard: under every positive
budget the responses go around its shards. -/
theorem serve_shards_rotates (budget : Nat) (s : ShardServer) (txid : String) (r : Nat) (hbudget : 0 < budget)
    (hhonest : s.byzantine_withhold = false) (hmeta : (s.store.shard_meta txid).isSome)
    (hheld : (s.store.dir txid).shards.size ≠ 0) :
    Rotates txid (s.store.dir txid) (s.serve_shard_cursor[txid]?.getD 0)
      (responses budget s (List.replicate r [txid])) := by
  have h : Serves budget s txid :=
    ⟨hbudget, hhonest, hmeta, by rw [Std.ExtTreeMap.length_keys]; exact Nat.pos_of_ne_zero hheld⟩
  exact (h.continues r).rotates hheld

namespace Toy

def two_of (info : Option DaMeta) : DaDir := ⟨info, ((∅ : da.Shards).insert 0 [1, 2]).insert 1 [3, 4]⟩

/-- A node with two shards of one body. -/
def shelf (withhold : Bool) (info : Option DaMeta) : ShardServer :=
  ⟨withhold, ⟨∅, (∅ : Dict DaDir).insert "body" (two_of info)⟩, ∅⟩

def two_meta : DaMeta := ⟨"", 4, 2, 2⟩

theorem shelf_dir (withhold : Bool) (info : Option DaMeta) : (shelf withhold info).store.dir "body" = two_of info := by
  rw [Store.dir, shelf, SumMap.get_insert, if_pos rfl]
  rfl

theorem two_held (info : Option DaMeta) : (two_of info).shards.size ≠ 0 := by
  rw [two_of, Std.ExtTreeMap.size_insert]
  split
  · next h => exact absurd h (by simp)
  · exact Nat.succ_ne_zero _

end Toy

theorem serve_shards_rotates_two :
    Rotates "body" (Toy.two_of (some Toy.two_meta)) 0 (responses 1 (Toy.shelf false (some Toy.two_meta)) [["body"], ["body"]]) := by
  have hdir := Toy.shelf_dir false (some Toy.two_meta)
  have h := serve_shards_rotates 1 (Toy.shelf false (some Toy.two_meta)) "body" 2 (by decide) rfl
    (by rw [Store.shard_meta, hdir]; rfl) (by rw [hdir]; exact Toy.two_held _)
  rw [hdir] at h
  exact h

theorem not_rotates_of_empty {txid : String} {d : DaDir} {c : Nat} : ¬ Rotates txid d c [[]] := by
  intro h
  obtain ⟨j, b, -, hr, -⟩ := h.continues
  exact List.cons_ne_nil _ _ hr.symm

/-- The node has both shards of the body, and serves none: under a budget of zero, when it withholds, and
without the metadata. -/
theorem shards_not_served :
    (∀ withhold info, ((Toy.shelf withhold info).store.dir "body").shards.size = 2) ∧
    (∀ c, ¬ Rotates "body" (Toy.two_of (some Toy.two_meta)) c
      (responses 0 (Toy.shelf false (some Toy.two_meta)) [["body"]])) ∧
    (∀ budget c, ¬ Rotates "body" (Toy.two_of (some Toy.two_meta)) c
      (responses budget (Toy.shelf true (some Toy.two_meta)) [["body"]])) ∧
    ∀ budget c, ¬ Rotates "body" (Toy.two_of none) c (responses budget (Toy.shelf false none) [["body"]]) := by
  refine ⟨fun withhold info => ?_, fun c => not_rotates_of_empty, fun budget c => not_rotates_of_empty, fun budget c => ?_⟩
  · rw [Toy.shelf_dir, Toy.two_of]
    rfl
  · have hnone : serve_shards budget (Toy.shelf false none) ["body"] = ([], Toy.shelf false none) := by
      have hmeta : (Toy.shelf false none).store.shard_meta "body" = none := by
        rw [Store.shard_meta, Toy.shelf_dir]
        rfl
      have hhonest : (Toy.shelf false none).byzantine_withhold = false := rfl
      simp only [serve_shards, hhonest, Bool.false_eq_true, if_false, List.take, List.foldl_cons, List.foldl_nil,
        serve_body, hmeta]
      split <;> rfl
    rw [responses, hnone]
    exact not_rotates_of_empty

end Sestrian
