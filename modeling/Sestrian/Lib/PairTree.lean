import Mathlib.Tactic.Common

/-!
# Trees of pairs

A list is hashed two by two, level after level, down to one value. The last value of an odd level is paired with
itself. A path climbs from one leaf to the top through the siblings it states.

No hash of fixed size is injective. What the binding facts need is that the pairs on the climbed path do not collide
with the pairs of the tree.
-/

namespace PairTree

variable {α : Type} (node : α → α → α)

/-! ## Levels -/

/-- The pairs of a level. -/
def pairs : List α → List (α × α)
  | [] => []
  | [a] => [(a, a)]
  | a :: b :: rest => (a, b) :: pairs rest

/-- The level above. -/
def up (level : List α) : List α := (pairs level).map fun p => node p.1 p.2

theorem length_pairs (level : List α) : (pairs level).length = (level.length + 1) / 2 := by
  induction level using pairs.induct with
  | case1 => simp [pairs]
  | case2 a => simp [pairs]
  | case3 a b rest ih =>
    unfold pairs
    rw [List.length_cons, ih]
    simp only [List.length_cons]
    omega

theorem length_up (level : List α) : (up node level).length = (level.length + 1) / 2 := by
  unfold up
  rw [List.length_map, length_pairs]

/-! ## The whole tree -/

/-- The levels from the leaves up. The fuel is enough when it is the length of the level. -/
def levels : Nat → List α → List (List α)
  | 0, level => [level]
  | n + 1, level => if level.length ≤ 1 then [level] else level :: levels n (up node level)

def top [Inhabited α] : Nat → List α → α
  | 0, level => level.headD default
  | n + 1, level => if level.length ≤ 1 then level.headD default else top n (up node level)

/-- All pairs that the tree hashes. -/
def tree_pairs : Nat → List α → List (α × α)
  | 0, _ => []
  | n + 1, level => if level.length ≤ 1 then [] else pairs level ++ tree_pairs n (up node level)

/-! ## Paths -/

/-- The pair of a value and its sibling. -/
def met (x : α) (s : Bool × α) : α × α := if s.1 then (s.2, x) else (x, s.2)

def step (x : α) (s : Bool × α) : α := node (met x s).1 (met x s).2

def climb (x : α) (path : List (Bool × α)) : α := path.foldl (step node) x

/-- The pairs that a climb hashes. -/
def climb_pairs : α → List (Bool × α) → List (α × α)
  | _, [] => []
  | x, s :: path => met x s :: climb_pairs (step node x s) path

def sibling [Inhabited α] (level : List α) (i : Nat) : Bool × α :=
  if i % 2 = 0 then (false, level.getD (i + 1) (level.getD i default)) else (true, level.getD (i - 1) default)

def path_of [Inhabited α] : List (List α) → Nat → List (Bool × α)
  | [], _ => []
  | level :: rest, i => sibling level i :: path_of rest (i / 2)

variable {node}

theorem half_le {level : List α} {n : Nat} (hn : level.length ≤ n + 1) (hlen : ¬ level.length ≤ 1) :
    (up node level).length ≤ n := by
  rw [length_up]
  omega

theorem up_ne_nil {level : List α} (h : level ≠ []) : up node level ≠ [] := by
  have hpos := List.length_pos_iff.mpr h
  have hup := length_up node level
  exact fun he => by
    rw [he, List.length_nil] at hup
    omega

theorem levels_ne_nil (n : Nat) (level : List α) : levels node n level ≠ [] := by
  cases n with
  | zero => exact List.cons_ne_nil _ _
  | succ n =>
    unfold levels
    split <;> exact List.cons_ne_nil _ _

theorem dropLast_cons_levels (n : Nat) (level level' : List α) :
    (level :: levels node n level').dropLast = level :: (levels node n level').dropLast :=
  List.dropLast_cons_of_ne_nil (levels_ne_nil n level')

theorem met_inj {x a : α} {s t : Bool × α} (hside : s.1 = t.1) (h : met x s = met a t) : x = a := by
  unfold met at h
  rw [hside] at h
  split at h
  · exact (Prod.mk.inj h).2
  · exact (Prod.mk.inj h).1

theorem eq_of_map_eq {β γ : Type} {f : β → γ} {xs ys : List β} (hapart : ∀ x ∈ xs, ∀ y ∈ ys, f x = f y → x = y)
    (h : xs.map f = ys.map f) : xs = ys := by
  induction xs generalizing ys with
  | nil => exact (List.map_eq_nil_iff.mp h.symm).symm
  | cons x xs ih =>
    obtain ⟨y, ys, rfl, hy, hys⟩ := List.map_eq_cons_iff.mp h.symm
    have hx : x = y := hapart x List.mem_cons_self y List.mem_cons_self hy.symm
    have hxs : xs = ys := ih (fun x hx y hy => hapart x (List.mem_cons_of_mem _ hx) y (List.mem_cons_of_mem _ hy)) hys.symm
    rw [hx, hxs]

theorem eq_of_pairs {level level' : List α} (hlen : level.length = level'.length) (h : pairs level = pairs level') :
    level = level' := by
  induction level using pairs.induct generalizing level' with
  | case1 => exact (List.eq_nil_of_length_eq_zero hlen.symm).symm
  | case2 a =>
    match level', hlen with
    | [b], _ =>
      obtain ⟨hab, -⟩ := Prod.mk.inj (List.cons.inj h).1
      rw [hab]
  | case3 a b rest ih =>
    match level', hlen with
    | c :: d :: rest', hlen =>
      obtain ⟨hhead, hrest⟩ := List.cons.inj h
      obtain ⟨hac, hbd⟩ := Prod.mk.inj hhead
      rw [hac, hbd, ih (by simpa using hlen) hrest]

section Facts

variable [Inhabited α]

/-- A place meets its sibling in the pair above it. -/
theorem pairs_get {level : List α} {i : Nat} {a : α} (h : level[i]? = some a) :
    (pairs level)[i / 2]? = some (met a (sibling level i)) := by
  induction level using pairs.induct generalizing i with
  | case1 => simp at h
  | case2 b =>
    cases i with
    | zero =>
      obtain rfl : b = a := by simpa using h
      simp [pairs, met, sibling]
    | succ i => simp at h
  | case3 b c rest ih =>
    unfold pairs
    match i with
    | 0 =>
      obtain rfl : b = a := by simpa using h
      simp [met, sibling]
    | 1 =>
      obtain rfl : c = a := by simpa using h
      simp [met, sibling]
    | i + 2 =>
      have hrest : rest[i]? = some a := by simpa using h
      have hhalf : (i + 2) / 2 = i / 2 + 1 := by omega
      have hsibling : sibling (b :: c :: rest) (i + 2) = sibling rest i := by
        unfold sibling
        by_cases hi : i % 2 = 0
        · simp [hi]
        · have hprev : i + 2 - 1 = i - 1 + 2 := by omega
          simp [hi, hprev]
      rw [hhalf, List.getElem?_cons_succ, ih hrest, hsibling]

theorem up_get {level : List α} {i : Nat} {a : α} (h : level[i]? = some a) :
    (up node level)[i / 2]? = some (step node a (sibling level i)) := by
  unfold up
  rw [List.getElem?_map, pairs_get h]
  rfl

/-- The last level holds the top alone. -/
theorem levels_last {n : Nat} {level : List α} (hn : level.length ≤ n) (h : level ≠ []) :
    (levels node n level).getLast? = some [top node n level] := by
  induction n generalizing level with
  | zero => exact absurd (List.length_eq_zero_iff.mp (Nat.le_zero.mp hn)) h
  | succ n ih =>
    unfold levels top
    split
    · rename_i hlen
      cases level with
      | nil => exact absurd rfl h
      | cons a rest =>
        obtain rfl : rest = [] := List.length_eq_zero_iff.mp (by simpa using hlen)
        rfl
    · rename_i hlen
      rw [List.getLast?_cons, ih (half_le hn hlen) (up_ne_nil h)]
      rfl

/-- The stated path of a leaf climbs to the top. -/
theorem climb_path_of {n : Nat} {level : List α} {i : Nat} {a : α} (hn : level.length ≤ n) (h : level[i]? = some a) :
    climb node a (path_of (levels node n level).dropLast i) = top node n level := by
  induction n generalizing level i a with
  | zero =>
    rw [List.length_eq_zero_iff.mp (Nat.le_zero.mp hn)] at h
    simp at h
  | succ n ih =>
    unfold levels top
    split
    · rename_i hlen
      have hi : i < level.length := (List.getElem?_eq_some_iff.mp h).1
      obtain rfl : i = 0 := by omega
      have hhead : level.headD default = a := by
        rw [List.headD_eq_head?_getD, List.head?_eq_getElem?, h, Option.getD_some]
      rw [hhead]
      rfl
    · rename_i hlen
      rw [dropLast_cons_levels, path_of, climb, List.foldl_cons]
      exact ih (half_le hn hlen) (up_get h)

/-- A climb on the sides of a leaf's path that reaches the top starts at that leaf. -/
theorem eq_of_climb {n : Nat} {level : List α} {i : Nat} {a x : α} {path : List (Bool × α)} (hn : level.length ≤ n)
    (h : level[i]? = some a) (hsides : path.map Prod.fst = (path_of (levels node n level).dropLast i).map Prod.fst)
    (hapart : ∀ p ∈ climb_pairs node x path, ∀ q ∈ tree_pairs node n level, node p.1 p.2 = node q.1 q.2 → p = q)
    (hclimb : climb node x path = top node n level) : x = a := by
  induction n generalizing level i a x path with
  | zero =>
    rw [List.length_eq_zero_iff.mp (Nat.le_zero.mp hn)] at h
    simp at h
  | succ n ih =>
    unfold levels at hsides
    unfold top at hclimb
    unfold tree_pairs at hapart
    split at hsides
    · rename_i hlen
      have hi : i < level.length := (List.getElem?_eq_some_iff.mp h).1
      obtain rfl : i = 0 := by omega
      have hhead : level.headD default = a := by
        rw [List.headD_eq_head?_getD, List.head?_eq_getElem?, h, Option.getD_some]
      obtain rfl : path = [] := List.map_eq_nil_iff.mp hsides
      rw [if_pos hlen, hhead] at hclimb
      exact hclimb
    · rename_i hlen
      rw [if_neg hlen] at hclimb hapart
      rw [dropLast_cons_levels, path_of, List.map_cons] at hsides
      obtain ⟨s, path, rfl, hs, hsides⟩ := List.map_eq_cons_iff.mp hsides
      rw [climb, List.foldl_cons] at hclimb
      have habove : step node x s = step node a (sibling level i) := by
        refine ih (half_le hn hlen) (up_get h) hsides (fun p hp q hq => ?_) hclimb
        exact hapart p (List.mem_cons_of_mem _ hp) q (List.mem_append_right _ hq)
      have hmem := List.mem_of_getElem? (pairs_get h)
      exact met_inj hs (hapart _ List.mem_cons_self _ (List.mem_append_left _ hmem) habove)

/-- Lists of one length with the same top are equal, where their pairs do not collide. -/
theorem eq_of_top {n : Nat} {level level' : List α} (hn : level.length ≤ n)
    (hlen : level.length = level'.length)
    (hapart : ∀ p ∈ tree_pairs node n level, ∀ q ∈ tree_pairs node n level', node p.1 p.2 = node q.1 q.2 → p = q)
    (h : top node n level = top node n level') : level = level' := by
  induction n generalizing level level' with
  | zero =>
    have hz : level = [] := List.length_eq_zero_iff.mp (Nat.le_zero.mp hn)
    rw [hz] at hlen ⊢
    exact (List.eq_nil_of_length_eq_zero hlen.symm).symm
  | succ n ih =>
    unfold top at h
    unfold tree_pairs at hapart
    by_cases hle : level.length ≤ 1
    · rw [if_pos hle, if_pos (hlen ▸ hle)] at h
      match level, level', hlen with
      | [], [], _ => rfl
      | [a], [b], _ => exact congrArg (fun x => [x]) h
      | a :: b :: rest, _, _ => exact absurd hle (by simp)
    · rw [if_neg hle, if_neg (hlen ▸ hle)] at h hapart
      have hup : up node level = up node level' := by
        refine ih (half_le hn hle) (by rw [length_up, length_up, hlen]) (fun p hp q hq => ?_) h
        exact hapart p (List.mem_append_right _ hp) q (List.mem_append_right _ hq)
      refine eq_of_pairs hlen (eq_of_map_eq (fun p hp q hq => ?_) hup)
      exact hapart p (List.mem_append_left _ hp) q (List.mem_append_left _ hq)

end Facts

end PairTree
