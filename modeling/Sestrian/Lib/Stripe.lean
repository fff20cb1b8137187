import Mathlib

/-!
# Stripes of a list

Every `n`-th entry, from each of the first `n` places: the stripes share out the list evenly.
-/

namespace Stripe

variable {α : Type*} {n lane : Nat} {xs : List α}

/-- The entries whose place is `lane` modulo `n`. -/
def stripe (n lane : Nat) (xs : List α) : List α := (xs.zipIdx.filter fun e => e.2 % n = lane).map (·.1)

theorem mem_stripe {x : α} : x ∈ stripe n lane xs ↔ ∃ k, xs[k]? = some x ∧ k % n = lane := by
  unfold stripe
  constructor
  · intro h
    obtain ⟨e, he, rfl⟩ := List.mem_map.mp h
    obtain ⟨hmem, hlane⟩ := List.mem_filter.mp he
    exact ⟨e.2, List.mem_zipIdx_iff_getElem?.mp hmem, of_decide_eq_true hlane⟩
  · rintro ⟨k, hk, hlane⟩
    exact List.mem_map.mpr ⟨(x, k), List.mem_filter.mpr ⟨List.mem_zipIdx_iff_getElem?.mpr hk, decide_eq_true hlane⟩, rfl⟩

theorem stripe_sublist : (stripe n lane xs).Sublist xs := by
  have h := (List.filter_sublist (l := xs.zipIdx) (p := fun e => decide (e.2 % n = lane))).map Prod.fst
  rwa [List.zipIdx_map_fst] at h

/-- Every entry is in one stripe. -/
theorem exists_stripe (hn : 0 < n) {x : α} : x ∈ xs ↔ ∃ lane < n, x ∈ stripe n lane xs := by
  constructor
  · intro hx
    obtain ⟨k, hk⟩ := List.mem_iff_getElem?.mp hx
    exact ⟨k % n, Nat.mod_lt _ hn, mem_stripe.mpr ⟨k, hk, rfl⟩⟩
  · rintro ⟨lane, -, hx⟩
    exact stripe_sublist.mem hx

theorem stripe_disjoint (hnd : xs.Nodup) {lane' : Nat} {x : α} (h : x ∈ stripe n lane xs) (h' : x ∈ stripe n lane' xs) :
    lane = lane' := by
  obtain ⟨k, hk, rfl⟩ := mem_stripe.mp h
  obtain ⟨k', hk', rfl⟩ := mem_stripe.mp h'
  obtain ⟨hlt, he⟩ := List.getElem?_eq_some_iff.mp hk
  obtain ⟨hlt', he'⟩ := List.getElem?_eq_some_iff.mp hk'
  rw [(List.Nodup.getElem_inj_iff hnd).mp (he.trans he'.symm)]

theorem length_stripe (hlane : lane < n) :
    (stripe n lane xs).length = xs.length / n + if lane < xs.length % n then 1 else 0 := by
  have hcount : (stripe n lane xs).length = xs.length.count (· ≡ lane [MOD n]) := by
    have hplaces : List.range xs.length = xs.zipIdx.map Prod.snd := by
      rw [List.zipIdx_map_snd, List.range_eq_range']
    rw [stripe, List.length_map, ← List.countP_eq_length_filter, Nat.count, hplaces, List.countP_map]
    refine List.countP_congr fun e _ => ?_
    simp only [Function.comp, decide_eq_true_eq, Nat.ModEq, Nat.mod_eq_of_lt hlane]
  rw [hcount, Nat.count_modEq_card _ (Nat.zero_lt_of_lt hlane), Nat.mod_eq_of_lt hlane]

end Stripe
