import Sestrian.Code.Fraud
import Sestrian.Code.Toy
import Sestrian.Tree.Aggregate

/-!
# What a fraud proof of a peer can do

The runs of `fraud_verify` that panic, exactly: an entry of the path without its two strings, a page of the parent
model without its two numbers, a span that ends before it starts or past the last page, and a vector that does not
fit in memory. Its length is a number that only the proof states, so no amount of memory is enough.
-/

open Panic

namespace Sestrian

namespace fraud

open serde_json (Value)

/-! ## The path -/

/-- The step of an entry that has both of its strings. -/
def step_of : Value → Option (Bool × String)
  | .array (.string side :: .string sib :: _) => some (side = "L", sib)
  | _ => none

/-- An entry that ends before its second string. -/
def Short (v : Value) : Prop := v = .array [] ∨ ∃ side, v = .array [.string side]

theorem path_step_cases (v : Value) :
    (Short v ∧ path_step v = .error .panic ∧ step_of v = none) ∨ (¬Short v ∧ path_step v = or_none (step_of v)) := by
  cases v with
  | array items =>
    cases items with
    | nil => exact .inl ⟨.inl rfl, rfl, rfl⟩
    | cons a rest =>
      cases a with
      | string side =>
        cases rest with
        | nil => exact .inl ⟨.inr ⟨side, rfl⟩, rfl, rfl⟩
        | cons b rest =>
          refine .inr ⟨by simp [Short], ?_⟩
          cases b <;> rfl
      | null | bool _ | number _ | array _ | object _ => exact .inr ⟨by simp [Short], rfl⟩
  | null | bool _ | number _ | string _ | object _ => exact .inr ⟨by simp [Short], rfl⟩

theorem or_none_ok_iff {α : Type} {o : Option α} {a : α} : or_none o = .ok a ↔ o = some a := by
  cases o with
  | none => exact ⟨fun h => (by cases h), fun h => (by cases h)⟩
  | some b => exact ⟨fun h => congrArg some (Except.ok.inj h), fun h => congrArg Except.ok (Option.some.inj h)⟩

theorem or_none_ne_panic {α : Type} (o : Option α) : or_none o ≠ .error .panic := by
  cases o <;> exact fun h => by cases h

theorem path_step_ok_iff {v : Value} {step : Bool × String} : path_step v = .ok step ↔ step_of v = some step := by
  rcases path_step_cases v with ⟨-, hp, hs⟩ | ⟨-, hp⟩
  · rw [hp, hs]
    exact ⟨fun h => (by cases h), fun h => (by cases h)⟩
  · rw [hp, or_none_ok_iff]

theorem path_step_panic_iff {v : Value} : path_step v = .error .panic ↔ Short v := by
  rcases path_step_cases v with ⟨hv, hp, -⟩ | ⟨hv, hp⟩
  · exact ⟨fun _ => hv, fun _ => hp⟩
  · rw [hp]
    exact ⟨fun h => absurd h (or_none_ne_panic _), fun h => absurd h hv⟩

/-- Every entry that is read is whole, or not an array of a string at all, and after one of those nothing is read. -/
def Whole (entries : List Value) : Prop :=
  ∀ before v after, entries = before ++ v :: after → (∀ w ∈ before, (step_of w).isSome) → ¬Short v

theorem path_panic_iff {entries : List Value} : entries.mapM path_step = .error .panic ↔ ¬Whole entries := by
  have hok (w : Value) : (∃ step, path_step w = .ok step) ↔ (step_of w).isSome := by
    rw [Option.isSome_iff_exists]
    exact exists_congr fun _ => path_step_ok_iff
  rw [mapM_panic_iff]
  unfold Whole
  push Not
  simp only [hok, path_step_panic_iff]

/-! ## Spans -/

def page_span : Value → Option (Nat × Nat)
  | .array (.number (.pos_int s) :: .number (.pos_int e) :: _) => some (s.toNat, e.toNat)
  | _ => none

theorem span_eq (pages : List Value) (i : Nat) : span pages i = unwrap (pages[i]?.bind page_span) := by
  unfold span
  cases pages[i]? with
  | none => rfl
  | some page =>
    cases page with
    | array r =>
      cases r with
      | nil => rfl
      | cons a r =>
        cases a with
        | number n =>
          cases n with
          | pos_int s =>
            cases r with
            | nil => rfl
            | cons b r =>
              cases b with
              | number n => cases n <;> rfl
              | null | bool _ | string _ | array _ | object _ => rfl
          | neg_int _ | float _ => rfl
        | null | bool _ | string _ | array _ | object _ => rfl
    | null | bool _ | number _ | string _ | object _ => rfl

/-! ## Columns -/

variable [Crypto] {p : PageFraudProof} {memory s e dim : Nat}

/-- The checks of a transaction pass. -/
def Passes (p : PageFraudProof) (dim : Nat) (tx : BackpropTx) : Prop :=
  claim p dim tx = .ok none ∨ ∃ body dense, claim p dim tx = .ok (some body) ∧ dense_image dim tx body = .ok dense

/-- The vector of a claimant fits in memory, and the span lies in it when its checks pass. -/
def Fits (p : PageFraudProof) (memory s e dim : Nat) (tx : BackpropTx) : Prop :=
  ∀ body, claim p dim tx = .ok (some body) →
    dim * 8 ≤ memory ∧ ∀ dense, dense_image dim tx body = .ok dense → s ≤ e ∧ e ≤ dim

omit [Crypto] in
theorem write_coords_length {cs : List (UInt64 × Int64)} {last : Int64} {dense dense' : List Int64}
    (h : write_coords dim cs last dense = .ok dense') : dense'.length = dense.length := by
  induction cs generalizing last dense with
  | nil => rw [← Except.ok.inj h]
  | cons c cs ih =>
    unfold write_coords at h
    split at h
    · cases h
    · rw [ih h, List.length_set]

theorem dense_image_length {tx : BackpropTx} {body : Body} {dense : List Int64} (h : dense_image dim tx body = .ok dense) :
    dense.length = dim := by
  unfold dense_image at h
  cases hw : write_coords dim (body.idx.zip body.val) (-1) (List.replicate dim 0) with
  | error why =>
    rw [hw] at h
    cases h
  | ok d =>
    rw [hw] at h
    change (Check.require (delta_hash (int64_bytes d) = tx.delta_hash) _ >>= fun _ => Except.ok d) = .ok dense at h
    unfold Check.require at h
    split at h
    · rw [← Except.ok.inj h, write_coords_length hw, List.length_replicate]
    · cases h

omit [Crypto] in
theorem slice_of_ok_iff {α : Type} {l col : List α} : slice_of l s e = .ok col ↔ (s ≤ e ∧ e ≤ l.length) ∧ slice l s e = col := by
  unfold slice_of
  rw [unwrap_ok_iff]
  split
  · rename_i h
    exact ⟨fun he => ⟨h, Option.some.inj he⟩, fun he => congrArg some he.2⟩
  · rename_i h
    exact ⟨fun he => (by cases he), fun he => absurd he.1 h⟩

/-- The page of a claimant: out of memory or of the span, or its width, or a rejected body. -/
theorem column_cases (memory s e dim : Nat) (tx : BackpropTx) (body : Body) :
    (¬(dim * 8 ≤ memory ∧ ∀ dense, dense_image dim tx body = .ok dense → s ≤ e ∧ e ≤ dim) ∧
      column memory s e dim tx body = .error .panic) ∨
    (∃ dense col, dense_image dim tx body = .ok dense ∧ dim * 8 ≤ memory ∧ s ≤ e ∧ e ≤ dim ∧ col.length = e - s ∧
      column memory s e dim tx body = .ok col) ∨
    ∃ why, dense_image dim tx body = .error why ∧ dim * 8 ≤ memory ∧
      column memory s e dim tx body = .error (.reject why) := by
  unfold column alloc_in
  by_cases hm : dim * 8 ≤ memory
  · rw [if_pos hm]
    cases hd : dense_image dim tx body with
    | error why => exact .inr (.inr ⟨why, rfl, hm, rfl⟩)
    | ok dense =>
      have hlen := dense_image_length hd
      by_cases hspan : s ≤ e ∧ e ≤ dim
      · refine .inr (.inl ⟨dense, slice dense s e, rfl, hm, hspan.1, hspan.2, ?_, ?_⟩)
        · unfold slice
          rw [List.length_take, List.length_drop, hlen]
          omega
        · exact slice_of_ok_iff.mpr ⟨hlen.symm ▸ hspan, rfl⟩
      · refine .inl ⟨fun h => hspan (h.2 dense rfl), ?_⟩
        change slice_of dense s e = .error .panic
        unfold slice_of
        rw [hlen, if_neg hspan]
        rfl
  · rw [if_neg hm]
    exact .inl ⟨fun h => hm h.1, rfl⟩

/-- One round of the loop: it panics, or it passes and adds at most a column of the width, or it is rejected. -/
theorem claim_column_cases (p : PageFraudProof) (memory s e dim : Nat) (cols : List (List Int64)) (tx : BackpropTx) :
    (¬Fits p memory s e dim tx ∧ claim_column memory p s e dim cols tx = .error .panic) ∨
    (Fits p memory s e dim tx ∧ Passes p dim tx ∧ ∃ more, claim_column memory p s e dim cols tx = .ok (cols ++ more) ∧
      ∀ c ∈ more, c.length = e - s) ∨
    (Fits p memory s e dim tx ∧ ¬Passes p dim tx ∧ ∃ why, claim_column memory p s e dim cols tx = .error (.reject why)) := by
  unfold claim_column Fits Passes
  cases hc : claim p dim tx with
  | error why =>
    refine .inr (.inr ⟨fun body h => (by cases h), ?_, why, rfl⟩)
    rintro (h | ⟨body, dense, h, -⟩) <;> cases h
  | ok claimed =>
    cases claimed with
    | none =>
      refine .inr (.inl ⟨fun body h => (by cases h), .inl rfl, [], ?_, fun c hc => absurd hc List.not_mem_nil⟩)
      rw [List.append_nil]
      rfl
    | some body =>
      have hone (b : Body) : (Except.ok (some body) : Except String (Option Body)) = .ok (some b) ↔ body = b :=
        ⟨fun h => Option.some.inj (Except.ok.inj h), fun h => h ▸ rfl⟩
      change (_ ∧ (column memory s e dim tx body >>= fun col => pure (cols ++ [col])) = _) ∨
        (_ ∧ _ ∧ ∃ more, (column memory s e dim tx body >>= fun col => pure (cols ++ [col])) = _ ∧ _) ∨
        (_ ∧ _ ∧ ∃ why, (column memory s e dim tx body >>= fun col => pure (cols ++ [col])) = _)
      rcases column_cases memory s e dim tx body with
        ⟨hbad, hcol⟩ | ⟨dense, col, hd, hm, hse, hed, hlen, hcol⟩ | ⟨why, hd, hm, hcol⟩
      · rw [hcol]
        exact .inl ⟨fun h => hbad (h body rfl), rfl⟩
      · rw [hcol]
        refine .inr (.inl ⟨fun b hb => ?_, .inr ⟨body, dense, rfl, hd⟩, [col], rfl, fun c hc => ?_⟩)
        · obtain rfl := (hone b).mp hb
          exact ⟨hm, fun _ _ => ⟨hse, hed⟩⟩
        · rw [List.mem_singleton.mp hc, hlen]
      · rw [hcol]
        refine .inr (.inr ⟨fun b hb => ?_, ?_, why, rfl⟩)
        · obtain rfl := (hone b).mp hb
          exact ⟨hm, fun dense h => by rw [hd] at h; cases h⟩
        · rintro (h | ⟨b, dense, hb, h⟩)
          · cases h
          · obtain rfl := (hone b).mp hb
            rw [hd] at h
            cases h

/-- Every transaction that the loop reaches fits. -/
def AllFit (p : PageFraudProof) (memory s e dim : Nat) (txs : List BackpropTx) : Prop :=
  ∀ before tx after, txs = before ++ tx :: after → (∀ t ∈ before, Passes p dim t) → Fits p memory s e dim tx

theorem allFit_cons {tx : BackpropTx} {txs : List BackpropTx} :
    AllFit p memory s e dim (tx :: txs) ↔
      Fits p memory s e dim tx ∧ (Passes p dim tx → AllFit p memory s e dim txs) := by
  constructor
  · refine fun h => ⟨h [] tx txs rfl (by simp), fun hp before t after ht hb => ?_⟩
    exact h (tx :: before) t after (by rw [ht]; rfl) (List.forall_mem_cons.mpr ⟨hp, hb⟩)
  · rintro ⟨hfit, hrest⟩ before t after ht hb
    cases before with
    | nil =>
      obtain ⟨rfl, rfl⟩ := List.cons.inj ht
      exact hfit
    | cons t' before =>
      obtain ⟨rfl, rfl⟩ := List.cons.inj ht
      obtain ⟨hp, hb⟩ := List.forall_mem_cons.mp hb
      exact hrest hp before t after rfl hb

/-- The whole loop: it panics, or all pass and the columns have the width, or it is rejected. -/
theorem columns_cases (p : PageFraudProof) (memory s e dim : Nat) (txs : List BackpropTx) (cols : List (List Int64)) :
    (¬AllFit p memory s e dim txs ∧ txs.foldlM (claim_column memory p s e dim) cols = .error .panic) ∨
    (AllFit p memory s e dim txs ∧ (∀ tx ∈ txs, Passes p dim tx) ∧
      ∃ more, txs.foldlM (claim_column memory p s e dim) cols = .ok (cols ++ more) ∧ ∀ c ∈ more, c.length = e - s) ∨
    (AllFit p memory s e dim txs ∧ ¬(∀ tx ∈ txs, Passes p dim tx) ∧
      ∃ why, txs.foldlM (claim_column memory p s e dim) cols = .error (.reject why)) := by
  induction txs generalizing cols with
  | nil =>
    refine .inr (.inl ⟨fun before tx after h => absurd h (by simp), by simp, [], ?_, fun c hc => absurd hc List.not_mem_nil⟩)
    rw [List.append_nil]
    rfl
  | cons tx txs ih =>
    rw [List.foldlM_cons, allFit_cons, List.forall_mem_cons]
    rcases claim_column_cases p memory s e dim cols tx with
      ⟨hfit, hrun⟩ | ⟨hfit, hpass, more, hrun, hwidth⟩ | ⟨hfit, hpass, why, hrun⟩
    · rw [hrun]
      exact .inl ⟨fun h => hfit h.1, rfl⟩
    · rw [hrun]
      change (_ ∧ txs.foldlM (claim_column memory p s e dim) (cols ++ more) = _) ∨
        (_ ∧ _ ∧ ∃ more', txs.foldlM (claim_column memory p s e dim) (cols ++ more) = _ ∧ _) ∨
        (_ ∧ _ ∧ ∃ why, txs.foldlM (claim_column memory p s e dim) (cols ++ more) = _)
      rcases ih (cols ++ more) with ⟨hall, hrest⟩ | ⟨hall, hpasses, more', hrest, hwidth'⟩ | ⟨hall, hpasses, why, hrest⟩
      · exact .inl ⟨fun h => hall (h.2 hpass), hrest⟩
      · refine .inr (.inl ⟨⟨hfit, fun _ => hall⟩, ⟨hpass, hpasses⟩, more ++ more', ?_, ?_⟩)
        · rw [hrest, List.append_assoc]
        · intro c hc
          exact (List.mem_append.mp hc).elim (hwidth c) (hwidth' c)
      · exact .inr (.inr ⟨⟨hfit, fun _ => hall⟩, fun h => hpasses h.2, why, hrest⟩)
    · rw [hrun]
      exact .inr (.inr ⟨⟨hfit, fun h => absurd h hpass⟩, fun h => hpass h.1, why, rfl⟩)

/-! ## The verdict -/

omit [Crypto] in
/-- The page with the mean of each column added. -/
theorem recompute_ok {page : List Int64} {cols : List (List Int64)} {w : Nat} (hlen : page.length = w)
    (hcols : ∀ z ∈ cols, z.length = w) :
    recompute page cols w = .ok (page.mapIdx fun j x => x + trimmed_mean_scalar (cols.map fun z => z.getD j 0)) := by
  by_cases hnil : cols = []
  · have hzero : trimmed_mean_scalar [] = 0 := Aggregate.trimmed_mean_zeros 0
    have hsame : page.mapIdx (fun j x => x + trimmed_mean_scalar (cols.map fun z => z.getD j 0)) = page := by
      rw [hnil]
      exact List.ext_getElem? fun j => by simp [hzero]
    unfold recompute
    rw [if_pos hnil, hsame]
    rfl
  · unfold recompute
    rw [if_neg hnil]
    -- The first `k` places are done after `k` rounds.
    have hrounds (k : Nat) (hk : k ≤ w) : (List.range k).foldlM (fun page j => do
        let col ← cols.mapM (fun z => unwrap z[j]?)
        let x ← unwrap page[j]?
        pure (page.set j (x + trimmed_mean_scalar col))) page =
        (.ok (page.mapIdx fun j x => if j < k then x + trimmed_mean_scalar (cols.map fun z => z.getD j 0) else x) :
          Run (List Int64)) := by
      induction k with
      | zero => exact congrArg Except.ok (List.ext_getElem? fun j => by simp)
      | succ k ih =>
        have hcol : cols.mapM (fun z => (unwrap z[k]? : Run Int64)) = .ok (cols.map fun z => z.getD k 0) := by
          refine Check.mapM_ok fun z hz => ?_
          have hin : k < z.length := by rw [hcols z hz]; exact hk
          rw [List.getElem?_eq_getElem hin, List.getD_eq_getElem _ _ hin]
          rfl
        have hin : k < page.length := by omega
        have hget : (page.mapIdx fun j x => if j < k then x + trimmed_mean_scalar (cols.map fun z => z.getD j 0) else x)[k]? =
            some page[k] := by
          rw [List.getElem?_mapIdx, List.getElem?_eq_getElem hin, Option.map_some, if_neg (Nat.lt_irrefl k)]
        rw [List.range_succ, List.foldlM_append]
        refine bind_ok_iff.mpr ⟨_, ih (by omega), ?_⟩
        rw [List.foldlM_cons]
        refine bind_ok_iff.mpr ⟨_, bind_ok_iff.mpr ⟨_, hcol, bind_ok_iff.mpr ⟨_, unwrap_ok_iff.mpr hget, rfl⟩⟩, ?_⟩
        refine congrArg Except.ok (List.ext_getElem? fun j => ?_)
        rw [List.getElem?_set, List.getElem?_mapIdx, List.getElem?_mapIdx, List.length_mapIdx]
        by_cases hj : k = j
        · subst hj
          rw [if_pos rfl, if_pos hin, List.getElem?_eq_getElem hin, Option.map_some, if_pos (Nat.lt_succ_self k)]
        · rw [if_neg hj]
          by_cases hlt : j < k
          · simp [hlt, Nat.lt_succ_of_lt hlt]
          · have hnot : ¬j < k + 1 := by omega
            simp [hlt, hnot]
    rw [hrounds w le_rfl]
    refine congrArg Except.ok (List.ext_getElem? fun j => ?_)
    rw [List.getElem?_mapIdx, List.getElem?_mapIdx]
    by_cases hj : j < page.length
    · rw [List.getElem?_eq_getElem hj, Option.map_some, Option.map_some, if_pos (hlen ▸ hj)]
    · rw [List.getElem?_eq_none (Nat.not_lt.mp hj)]
      rfl

omit [Crypto] in
theorem length_of_mapM {α β : Type} {f : α → Option β} {xs : List α} {ys : List β} (h : xs.mapM f = some ys) :
    ys.length = xs.length := by
  induction xs generalizing ys with
  | nil =>
    obtain rfl := Option.some.inj h
    rfl
  | cons x xs ih =>
    rw [List.mapM_cons] at h
    cases hx : f x with
    | none =>
      rw [hx] at h
      cases h
    | some y =>
      cases hxs : xs.mapM f with
      | none =>
        rw [hx, hxs] at h
        cases h
      | some ys' =>
        rw [hx, hxs] at h
        obtain rfl := Option.some.inj h
        rw [List.length_cons, List.length_cons, ih hxs]

/-- The level that passes has a leaf for the claimed page. -/
theorem level_at_page {from_str : String → Option Value} {pages : List Value} {level : List Hash}
    (ho : open_model from_str p = .ok pages) (hs : check_set p pages = .ok level) : ∃ h, level[p.page_id]? = some h := by
  unfold open_model at ho
  unfold check_set at hs
  simp only [Check.bind_eq_ok, Check.require_eq_ok] at ho hs
  obtain ⟨_, _, _, _, mj, _, pages', _, _, _, _, hlt, hpages⟩ := ho
  obtain ⟨_, hlen, level', hlevel, _, _, _, _, _, _, hlevel'⟩ := hs
  obtain rfl := Except.ok.inj hpages
  obtain rfl := Except.ok.inj hlevel'
  have hmapM : p.committed_leaves.mapM as_hash = some level' := by
    cases hm : p.committed_leaves.mapM as_hash with
    | none =>
      rw [hm] at hlevel
      cases hlevel
    | some l =>
      rw [hm] at hlevel
      exact congrArg some (Except.ok.inj hlevel)
  have hlt' : p.page_id < level'.length := by
    rw [length_of_mapM hmapM, hlen]
    exact hlt
  exact ⟨_, List.getElem?_eq_getElem hlt'⟩

/-- Where the checks before it pass, the spans of the claimed page and of the last page are two numbers each, every
transaction that is reached fits, and the claimed span does not end before it starts. -/
def Sane (from_str : String → Option Value) (memory : Nat) (p : PageFraudProof) : Prop :=
  ∀ pages, open_model from_str p = .ok pages →
    ∃ s e s' dim, pages[p.page_id]?.bind page_span = some (s, e) ∧
      pages[pages.length - 1]?.bind page_span = some (s', dim) ∧
      ∀ level, check_set p pages = .ok level →
        AllFit p memory s e dim p.txs ∧ ((∀ tx ∈ p.txs, Passes p dim tx) → s ≤ e)

theorem judge_panic_iff (from_str : String → Option Value) (memory : Nat) (p : PageFraudProof) :
    judge from_str memory p = .error .panic ↔ ¬Sane from_str memory p := by
  unfold judge Sane
  cases ho : open_model from_str p with
  | error why => exact ⟨fun h => (by cases h), fun h => absurd (fun pages hp => (by cases hp)) h⟩
  | ok pages =>
    have hone {Q : List Value → Prop} : (∀ pages', (Except.ok pages : Except String (List Value)) = .ok pages' → Q pages') ↔ Q pages :=
      ⟨fun h => h pages rfl, fun h pages' he => Except.ok.inj he ▸ h⟩
    rw [hone]
    change (span pages p.page_id >>= fun page_span => span pages (pages.length - 1) >>= fun last_span =>
      lift_check (check_set p pages) >>= fun level =>
        p.txs.foldlM (claim_column memory p page_span.1 page_span.2 last_span.2) [] >>= fun cols =>
          width page_span.1 page_span.2 >>= fun w => lift_check (check_parent p w) >>= fun _ =>
            recompute p.parent_page cols w >>= fun page => unwrap level[p.page_id]? >>= fun committed =>
              pure (verdict p (merkle.leaf_hash (int64_bytes page)) committed)) = _ ↔ _
    rw [span_eq, span_eq]
    cases hpage : pages[p.page_id]?.bind page_span with
    | none =>
      refine ⟨fun _ ⟨s, e, s', dim, h, _⟩ => (by cases h), fun _ => rfl⟩
    | some at_page =>
      obtain ⟨s, e⟩ := at_page
      cases hlast : pages[pages.length - 1]?.bind page_span with
      | none => exact ⟨fun _ ⟨_, _, _, _, _, h, _⟩ => (by cases h), fun _ => rfl⟩
      | some at_last =>
        obtain ⟨s', dim⟩ := at_last
        cases hs : check_set p pages with
        | error why =>
          exact ⟨fun h => (by cases h), fun h => absurd ⟨s, e, s', dim, rfl, rfl, fun _ h => (by cases h)⟩ h⟩
        | ok level =>
          obtain ⟨committed, hcommitted⟩ := level_at_page ho hs
          have hiff : (∃ s₁ e₁ s₂ dim₁, some (s, e) = some (s₁, e₁) ∧ some (s', dim) = some (s₂, dim₁) ∧
              ∀ level', (Except.ok level : Except String (List Hash)) = .ok level' →
                AllFit p memory s₁ e₁ dim₁ p.txs ∧ ((∀ tx ∈ p.txs, Passes p dim₁ tx) → s₁ ≤ e₁)) ↔
              AllFit p memory s e dim p.txs ∧ ((∀ tx ∈ p.txs, Passes p dim tx) → s ≤ e) := by
            constructor
            · rintro ⟨s₁, e₁, s₂, dim₁, h₁, h₂, h⟩
              obtain ⟨rfl, rfl⟩ := Prod.mk.inj (Option.some.inj h₁)
              obtain ⟨rfl, rfl⟩ := Prod.mk.inj (Option.some.inj h₂)
              exact h level rfl
            · exact fun h => ⟨s, e, s', dim, rfl, rfl, fun _ _ => h⟩
          rw [hiff]
          change (p.txs.foldlM (claim_column memory p s e dim) [] >>= fun cols =>
            width s e >>= fun w => lift_check (check_parent p w) >>= fun _ =>
              recompute p.parent_page cols w >>= fun page => unwrap level[p.page_id]? >>= fun committed =>
                pure (verdict p (merkle.leaf_hash (int64_bytes page)) committed)) = _ ↔ _
          rcases columns_cases p memory s e dim p.txs [] with
            ⟨hall, hrun⟩ | ⟨hall, hpass, more, hrun, hwidth⟩ | ⟨hall, hpass, why, hrun⟩
          · rw [hrun]
            exact ⟨fun _ h => hall h.1, fun _ => rfl⟩
          · rw [hrun]
            by_cases hse : s ≤ e
            · have hw : width s e = .ok (e - s) := by
                unfold width
                rw [if_pos hse]
                rfl
              refine ⟨fun h => ?_, fun h => absurd ⟨hall, fun _ => hse⟩ h⟩
              change (width s e >>= fun w => _) = _ at h
              rw [hw] at h
              change (lift_check (check_parent p (e - s)) >>= fun _ => _) = _ at h
              cases hparent : check_parent p (e - s) with
              | error why =>
                rw [hparent] at h
                cases h
              | ok u =>
                have hlen : p.parent_page.length = e - s := by
                  unfold check_parent at hparent
                  by_contra hne
                  have hreq : Check.require (p.parent_page.length = e - s) "parent page span mismatch" =
                      .error "parent page span mismatch" := if_neg hne
                  rw [hreq] at hparent
                  cases hparent
                rw [hparent] at h
                change (recompute p.parent_page ([] ++ more) (e - s) >>= fun page => _) = _ at h
                rw [List.nil_append, recompute_ok hlen hwidth, hcommitted] at h
                cases h
            · refine ⟨fun _ h => hse (h.2 hpass), fun _ => ?_⟩
              change (width s e >>= fun w => _) = _
              unfold width
              rw [if_neg hse]
              rfl
          · rw [hrun]
            exact ⟨fun h => (by cases h), fun h => absurd ⟨hall, fun h' => absurd h' hpass⟩ h⟩

theorem verify_panic_iff (from_str : String → Option Value) (memory : Nat) (p : PageFraudProof) :
    verify from_str memory p = .error .panic ↔ ¬Sane from_str memory p := by
  rw [← judge_panic_iff]
  unfold verify
  rcases judge from_str memory p with (_ | why) | v
  · exact ⟨fun _ => rfl, fun _ => rfl⟩
  · exact ⟨fun h => (by cases h), fun h => (by cases h)⟩
  · exact ⟨fun h => (by cases h), fun h => (by cases h)⟩

omit [Crypto] in
theorem path_ok_iff {entries : List Value} {path : List (Bool × String)} :
    entries.mapM path_step = .ok path ↔ entries.mapM step_of = some path := by
  induction entries generalizing path with
  | nil => exact ⟨fun h => congrArg some (Except.ok.inj h), fun h => congrArg Except.ok (Option.some.inj h)⟩
  | cons v entries ih =>
    simp only [List.mapM_cons, bind_ok_iff, path_step_ok_iff, ih, Option.bind_eq_bind, Option.bind_eq_some_iff]
    exact exists_congr fun step => and_congr_right fun _ => exists_congr fun rest => and_congr_right fun _ =>
      ⟨fun h => congrArg some (Except.ok.inj h), fun h => congrArg Except.ok (Option.some.inj h)⟩

/-- Where the bodies, the transactions and the path are there, the path is whole, and the proof, where all of it
parses, is sane. -/
def Harmless (from_str : String → Option Value) (memory : Nat) (v : Value) : Prop :=
  ∀ bodies txs entries, parse_bodies v = some bodies → parse_txs v = some txs →
    (v.index "parent_path").as_array = some entries →
      Whole entries ∧ ∀ path p, entries.mapM step_of = some path → proof_of v bodies txs path = some p →
        Sane from_str memory p

/-- With so much memory, a proof from a peer is judged without a panic exactly where it is harmless. -/
theorem fraud_verify_panic_iff (from_str : String → Option Value) (memory : Nat) (v : Value) :
    fraud_verify from_str memory v ≠ .error .panic ↔ Harmless from_str memory v := by
  unfold fraud_verify Harmless
  cases hbodies : parse_bodies v with
  | none => exact ⟨fun _ _ _ _ h => (by cases h), fun _ h => (by cases h)⟩
  | some bodies =>
    cases htxs : parse_txs v with
    | none => exact ⟨fun _ _ _ _ _ h => (by cases h), fun _ h => (by cases h)⟩
    | some txs =>
      cases hentries : (v.index "parent_path").as_array with
      | none => exact ⟨fun _ _ _ _ _ _ h => (by cases h), fun _ h => (by cases h)⟩
      | some entries =>
        change (entries.mapM path_step >>= fun path => or_none (proof_of v bodies txs path) >>= fun p =>
          verify from_str memory p) ≠ .error .panic ↔ _
        rw [Ne, bind_panic_iff, path_panic_iff, not_or, not_not]
        constructor
        · rintro ⟨hwhole, hrest⟩ _ _ _ hb ht he
          obtain rfl := Option.some.inj hb
          obtain rfl := Option.some.inj ht
          obtain rfl := Option.some.inj he
          refine ⟨hwhole, fun path p hpath hp => ?_⟩
          by_contra hsane
          refine hrest ⟨path, path_ok_iff.mpr hpath, ?_⟩
          rw [hp]
          exact (verify_panic_iff ..).mpr hsane
        · intro h
          obtain ⟨hwhole, hrest⟩ := h _ _ _ rfl rfl rfl
          refine ⟨hwhole, ?_⟩
          rintro ⟨path, hpath, hpanic⟩
          rcases bind_panic_iff.mp hpanic with hnone | ⟨p, hp, hv⟩
          · exact or_none_ne_panic _ hnone
          · exact (verify_panic_iff ..).mp hv (hrest path p (path_ok_iff.mp hpath) (or_none_ok_iff.mp hp))

/-! ## No memory to spare -/

theorem Fits.more {tx : BackpropTx} (h : Fits p 0 s e dim tx) (memory : Nat) : Fits p memory s e dim tx := by
  intro body hbody
  obtain ⟨hnone, hspan⟩ := h body hbody
  exact ⟨hnone.trans (Nat.zero_le memory), hspan⟩

theorem Sane.more {from_str : String → Option Value} (h : Sane from_str 0 p) (memory : Nat) : Sane from_str memory p := by
  intro pages ho
  obtain ⟨s, e, s', dim, hpage, hlast, hrest⟩ := h pages ho
  refine ⟨s, e, s', dim, hpage, hlast, fun level hs => ?_⟩
  obtain ⟨hall, hse⟩ := hrest level hs
  exact ⟨fun before tx after ht hb => (hall before tx after ht hb).more memory, hse⟩

/-- However much memory there is, even none: a proof is judged without a panic exactly where no claimant brings a vector
whose length only the proof states, and nothing else goes wrong. -/
theorem fraud_verify_safe_iff (from_str : String → Option Value) (v : Value) :
    (∀ memory, fraud_verify from_str memory v ≠ .error .panic) ↔ Harmless from_str 0 v := by
  refine ⟨fun h => (fraud_verify_panic_iff from_str 0 v).mp (h 0), fun h memory => ?_⟩
  refine (fraud_verify_panic_iff from_str memory v).mpr fun bodies txs entries hb ht he => ?_
  obtain ⟨hwhole, hsane⟩ := h bodies txs entries hb ht he
  exact ⟨hwhole, fun path p hpath hp => (hsane path p hpath hp).more memory⟩

end fraud

open scoped Toy

/-- The shortest proof that brings a node down: a path with an empty entry. -/
theorem empty_step_panics :
    fraud.fraud_verify (fun _ => none) (2 ^ 40)
      (.object [("bodies", .object []), ("parent_path", .array [.array []]), ("txs", .array [])]) = .error .panic := rfl

end Sestrian
