import Sestrian.Code.Beacon
import Sestrian.Code.Toy
import Sestrian.Lib.Check
import Sestrian.Lib.Shamir

/-!
# Every quorum makes the same beacon

Keys from the dealer and from the distributed generation are the values of one polynomial, so whichever nodes sign a
round, what they combine is the secret's multiple of the round's point.
-/

open Check

namespace Sestrian

namespace rig

open Polynomial

section Any

variable {E₁ E₂ T : Type} [AddCommGroup E₁] [AddCommGroup E₂] [CommGroup T]

/-- What is assumed of `py_ecc`: groups of prime order and a bilinear pairing. -/
structure PyEcc.Lawful (py : PyEcc E₁ E₂ T) : Prop where
  prime : py.curve_order.Prime
  order₁ : ∀ P : E₁, py.curve_order • P = 0
  order₂ : ∀ P : E₂, py.curve_order • P = 0
  pairing_left : ∀ P Q R, py.pairing (P + Q) R = py.pairing P R * py.pairing Q R
  pairing_right : ∀ P R S, py.pairing P (R + S) = py.pairing P R * py.pairing P S

/-! ## Loops -/

theorem mapM_error {α β : Type} {f : α → Except Raised β} {xs : List α} {e : Raised} (h : xs.mapM f = .error e) :
    ∃ x ∈ xs, f x = .error e := by
  induction xs with
  | nil => cases h
  | cons x xs ih =>
    rw [List.mapM_cons] at h
    cases hx : f x with
    | error e' =>
      rw [hx] at h
      exact ⟨x, List.mem_cons_self, hx.trans (congrArg _ (Except.error.inj h))⟩
    | ok y =>
      rw [hx] at h
      cases hxs : xs.mapM f with
      | error e' =>
        rw [hxs] at h
        obtain ⟨z, hz, he⟩ := ih (hxs.trans (congrArg _ (Except.error.inj h)))
        exact ⟨z, List.mem_cons_of_mem _ hz, he⟩
      | ok ys =>
        rw [hxs] at h
        cases h

theorem entry_map {α : Type} {g : Nat → α} {xs : List Nat} {i : Nat} (h : i ∈ xs) :
    entry (xs.map fun x => (x, g x)) i = .ok (g i) := by
  have hlookup : (xs.map fun x => (x, g x)).lookup i = some (g i) := by
    induction xs with
    | nil => exact absurd h List.not_mem_nil
    | cons x xs ih =>
      rw [List.map_cons, List.lookup_cons]
      rcases eq_or_ne i x with rfl | hne
      · rw [beq_self_eq_true]
      · rw [beq_false_of_ne hne]
        exact ih ((List.mem_cons.mp h).resolve_left hne)
  rw [entry, hlookup]

theorem foldlM_add_term_some {α M : Type} [AddCommGroup M] {f : α → Except Raised M} {g : α → M} {xs : List α}
    (h : ∀ x ∈ xs, f x = .ok (g x)) (a : M) :
    xs.foldlM (fun acc x => do pure (PyEcc.add_term acc (← f x))) (some a) = .ok (some (a + (xs.map g).sum)) := by
  induction xs generalizing a with
  | nil =>
    rw [List.map_nil, List.sum_nil, add_zero]
    rfl
  | cons x xs ih =>
    obtain ⟨hx, hxs⟩ := List.forall_mem_cons.mp h
    rw [List.foldlM_cons, hx, List.map_cons, List.sum_cons, ← add_assoc]
    exact ih hxs (a + g x)

/-- Terms that come one by one, and their sum. -/
theorem foldlM_add_term {α M : Type} [AddCommGroup M] {f : α → Except Raised M} {g : α → M} {xs : List α}
    (h : ∀ x ∈ xs, f x = .ok (g x)) (hne : xs ≠ []) :
    xs.foldlM (fun acc x => do pure (PyEcc.add_term acc (← f x))) none = .ok (some (xs.map g).sum) := by
  cases xs with
  | nil => exact absurd rfl hne
  | cons x xs =>
    obtain ⟨hx, hxs⟩ := List.forall_mem_cons.mp h
    rw [List.foldlM_cons, hx, List.map_cons, List.sum_cons]
    exact foldlM_add_term_some hxs (g x)

theorem foldl_add_term {α M : Type} [AddCommGroup M] {g : α → M} {xs : List α} (hne : xs ≠ []) :
    xs.foldl (fun acc x => PyEcc.add_term acc (g x)) none = some (xs.map g).sum := by
  have hsome (ys : List α) (a : M) : ys.foldl (fun acc x => PyEcc.add_term acc (g x)) (some a) =
      some (a + (ys.map g).sum) := by
    induction ys generalizing a with
    | nil => rw [List.map_nil, List.sum_nil, add_zero, List.foldl_nil]
    | cons y ys ih => rw [List.foldl_cons, List.map_cons, List.sum_cons, ← add_assoc, ← ih, PyEcc.add_term]
  cases xs with
  | nil => exact absurd rfl hne
  | cons x xs => rw [List.foldl_cons, List.map_cons, List.sum_cons, ← hsome, PyEcc.add_term]

namespace PyEcc

variable {py : PyEcc E₁ E₂ T}

/-! ## Groups of prime order -/

theorem Lawful.pairing_nsmul_left (h : py.Lawful) (n : Nat) (P : E₂) (R : E₁) :
    py.pairing (n • P) R = py.pairing P R ^ n := by
  induction n with
  | zero =>
    have hzero := h.pairing_left 0 0 R
    rw [add_zero, left_eq_mul] at hzero
    rw [zero_nsmul, pow_zero, hzero]
  | succ n ih => rw [succ_nsmul, h.pairing_left, ih, pow_succ]

theorem Lawful.pairing_nsmul_right (h : py.Lawful) (n : Nat) (P : E₂) (R : E₁) :
    py.pairing P (n • R) = py.pairing P R ^ n := by
  induction n with
  | zero =>
    have hzero := h.pairing_right P 0 0
    rw [add_zero, left_eq_mul] at hzero
    rw [zero_nsmul, pow_zero, hzero]
  | succ n ih => rw [succ_nsmul, h.pairing_right, ih, pow_succ]

/-- A multiple of the round's point verifies against the same multiple of the generator. -/
theorem Lawful.verify_multiple [DecidableEq T] (h : py.Lawful) (s : Nat) (r : Int) :
    py.verify (s • py.round_point r) r (s • py.G1) = true := by
  rw [verify, decide_eq_true_eq, h.pairing_nsmul_left, h.pairing_nsmul_right]

/-! ## Shares are values -/

/-- The coefficients as the field sees them. -/
def residues (p : Nat) (coeffs : List Nat) : List (ZMod p) := coeffs.map fun (c : Nat) => (c : ZMod p)

variable [Fact py.curve_order.Prime]

omit [AddCommGroup E₁] [AddCommGroup E₂] [CommGroup T] in
theorem cast_share_of (coeffs : List Nat) (i : Nat) : ((py.share_of coeffs i : Nat) : ZMod py.curve_order) =
    Shamir.value (i : ZMod py.curve_order) 0 (residues py.curve_order coeffs) := by
  have hfold (k s : Nat) : (((coeffs.zipIdx k).foldl
      (fun s c => (s + c.1 * (i ^ c.2 % py.curve_order)) % py.curve_order) s : Nat) : ZMod py.curve_order) =
      s + Shamir.value (i : ZMod py.curve_order) k (residues py.curve_order coeffs) := by
    induction coeffs generalizing k s with
    | nil => exact (add_zero _).symm
    | cons c cs ih =>
      rw [List.zipIdx_cons, List.foldl_cons, ih, ZMod.natCast_mod, Nat.cast_add, Nat.cast_mul, ZMod.natCast_mod,
        Nat.cast_pow, add_assoc]
      rfl
  have h := hfold 0 0
  rwa [Nat.cast_zero, zero_add] at h

/-! ## Coefficients of the combination -/

omit [AddCommGroup E₁] [AddCommGroup E₂] [CommGroup T] in
theorem cast_num_den (indices : List Nat) (i : Nat) :
    (((py.num_den indices i).1 : ZMod py.curve_order) = ((indices.filter (· ≠ i)).map fun (j : Nat) => -(j : ZMod py.curve_order)).prod) ∧
    ((py.num_den indices i).2 : ZMod py.curve_order) =
      ((indices.filter (· ≠ i)).map fun (j : Nat) => (i : ZMod py.curve_order) - j).prod := by
  have hfold (nd : Int × Int) : let nd' := indices.foldl (fun nd j => if j = i then nd
      else ((nd.1 * -(j : Int)) % py.curve_order, (nd.2 * ((i : Int) - j)) % py.curve_order)) nd
      (nd'.1 : ZMod py.curve_order) =
        nd.1 * ((indices.filter (· ≠ i)).map fun (j : Nat) => -(j : ZMod py.curve_order)).prod ∧
      (nd'.2 : ZMod py.curve_order) =
        nd.2 * ((indices.filter (· ≠ i)).map fun (j : Nat) => (i : ZMod py.curve_order) - j).prod := by
    induction indices generalizing nd with
    | nil => simp
    | cons j js ih =>
      rw [List.foldl_cons]
      by_cases hji : j = i
      · rw [if_pos hji]
        simpa [hji] using ih nd
      · rw [if_neg hji]
        have h := ih ((nd.1 * -(j : Int)) % py.curve_order, (nd.2 * ((i : Int) - j)) % py.curve_order)
        simp only [ZMod.intCast_mod] at h
        simpa [hji, mul_assoc] using h
  have h := hfold (1, 1)
  simpa [num_den] using h

omit [AddCommGroup E₁] [AddCommGroup E₂] [CommGroup T] in
theorem pow_inverse_eq {den : Int} (h : (den : ZMod py.curve_order) ≠ 0) :
    py.pow_inverse den = .ok (Int.gcdA den py.curve_order % py.curve_order) ∧
      ((Int.gcdA den py.curve_order : Int) : ZMod py.curve_order) = (den : ZMod py.curve_order)⁻¹ := by
  have hprime : py.curve_order.Prime := Fact.out
  have hgcd : Int.gcd den py.curve_order = 1 := by
    have hdvd : ¬ py.curve_order ∣ den.natAbs := by
      rwa [← Int.natCast_dvd, ← ZMod.intCast_zmod_eq_zero_iff_dvd]
    exact ((Nat.Prime.coprime_iff_not_dvd hprime).mpr hdvd).symm
  refine ⟨by rw [pow_inverse, if_pos hgcd], eq_inv_of_mul_eq_one_right ?_⟩
  have hbezout := Int.gcd_eq_gcd_ab den py.curve_order
  rw [hgcd] at hbezout
  have hcast := congrArg (Int.cast : Int → ZMod py.curve_order) hbezout
  simpa using hcast.symm

/-- The indices are below the order, so the field tells them apart. -/
theorem cast_injOn {p : Nat} {idx : List Nat} (hlt : ∀ i ∈ idx, i < p) :
    ∀ i ∈ idx, ∀ j ∈ idx, (i : ZMod p) = j → i = j := by
  intro i hi j hj h
  rw [ZMod.natCast_eq_natCast_iff] at h
  exact h.eq_of_lt_of_lt (hlt i hi) (hlt j hj)

theorem weight_residues {p : Nat} [Fact p.Prime] {idx : List Nat} (hlt : ∀ i ∈ idx, i < p) {i : Nat} (hi : i ∈ idx) :
    Shamir.weight (residues p idx) (i : ZMod p) = ((idx.filter (· ≠ i)).map fun (j : Nat) => -(j : ZMod p)).prod *
      (((idx.filter (· ≠ i)).map fun (j : Nat) => (i : ZMod p) - j).prod)⁻¹ := by
  have hfilter : (residues p idx).filter (· ≠ (i : ZMod p)) = residues p (idx.filter (· ≠ i)) := by
    rw [residues, residues, List.filter_map]
    refine congrArg _ (List.filter_congr fun j hj => ?_)
    have hiff : (j : ZMod p) = i ↔ j = i := ⟨cast_injOn hlt j hj i hi, congrArg _⟩
    simp [hiff]
  rw [Shamir.weight, hfilter, residues, List.map_map, List.map_map]
  rfl

/-- The coefficient of one index. -/
def coefficient (py : PyEcc E₁ E₂ T) (idx : List Nat) (i : Nat) : Nat :=
  ((py.num_den idx i).1 * (Int.gcdA (py.num_den idx i).2 py.curve_order % py.curve_order) % py.curve_order).toNat

omit [AddCommGroup E₁] [AddCommGroup E₂] [CommGroup T] in
variable (py) in
theorem lagrange_eq {idx : List Nat} (hlt : ∀ i ∈ idx, i < py.curve_order) :
    py.lagrange_at_zero idx = .ok (idx.map fun i => (i, py.coefficient idx i)) ∧
    ∀ i ∈ idx, (py.coefficient idx i : ZMod py.curve_order) =
      Shamir.weight (residues py.curve_order idx) (i : ZMod py.curve_order) := by
  have hpos : (py.curve_order : Int) ≠ 0 := Int.natCast_ne_zero.mpr (Fact.out : py.curve_order.Prime).ne_zero
  have hden (i : Nat) (hi : i ∈ idx) : ((py.num_den idx i).2 : ZMod py.curve_order) ≠ 0 := by
    rw [(cast_num_den idx i).2]
    refine List.prod_ne_zero fun hzero => ?_
    obtain ⟨j, hj, hzero⟩ := List.mem_map.mp hzero
    obtain ⟨hjidx, hne⟩ := List.mem_filter.mp hj
    exact of_decide_eq_true hne (cast_injOn hlt i hi j hjidx (sub_eq_zero.mp hzero)).symm
  constructor
  · refine mapM_ok fun i hi => ?_
    rw [(pow_inverse_eq (hden i hi)).1]
    rfl
  · intro i hi
    obtain ⟨-, hinv⟩ := pow_inverse_eq (hden i hi)
    have hnonneg := Int.emod_nonneg
      ((py.num_den idx i).1 * (Int.gcdA (py.num_den idx i).2 py.curve_order % py.curve_order)) hpos
    rw [weight_residues hlt hi, ← (cast_num_den idx i).1, ← (cast_num_den idx i).2, ← hinv, coefficient,
      ← Int.cast_natCast, Int.toNat_of_nonneg hnonneg, ZMod.intCast_mod, Int.cast_mul, ZMod.intCast_mod]

/-! ## Combining -/

/-- Shares of a point, as many as the polynomial has coefficients, make the secret's multiple of it. -/
theorem Lawful.combine_shares (h : py.Lawful) {f : (ZMod py.curve_order)[X]} {idx : List Nat} {share : Nat → Nat}
    (hnd : idx.Nodup) (hne : idx ≠ []) (hlt : ∀ i ∈ idx, i < py.curve_order)
    (hshare : ∀ i ∈ idx, (share i : ZMod py.curve_order) = f.eval (i : ZMod py.curve_order))
    (hdeg : f.degree < idx.length) {s : Nat} (hs : (s : ZMod py.curve_order) = f.eval 0) (r : Int) (P : E₂) :
    py.combine r (idx.map fun i => (i, share i • P)) = .ok (some (s • P)) := by
  let _ := AddCommGroup.zmodModule h.order₂
  obtain ⟨hlag, hcoeff⟩ := lagrange_eq py hlt
  have hkeys : (idx.map fun i => (i, share i • P)).map (·.1) = idx := by
    rw [List.map_map]
    exact List.map_id idx
  have hne' : (idx.map fun i => (i, share i • P)) ≠ [] := by simpa using hne
  have hfold : py.combine r (idx.map fun i => (i, share i • P)) =
      .ok (some ((idx.map fun i => (i, share i • P)).map fun e => (py.coefficient idx e.1 % py.curve_order) • e.2).sum) := by
    rw [combine, hkeys, hlag]
    have hok : ∀ e ∈ idx.map fun i => (i, share i • P),
        (do pure (((← entry (idx.map fun i => (i, py.coefficient idx i)) e.1) % py.curve_order) • e.2) : Except Raised E₂) =
          .ok ((py.coefficient idx e.1 % py.curve_order) • e.2) := by
      intro e he
      obtain ⟨i, hi, rfl⟩ := List.mem_map.mp he
      rw [entry_map hi]
      rfl
    have hsum := foldlM_add_term hok hne'
    simp only [bind_assoc, pure_bind] at hsum
    exact hsum
  have hterms : ((idx.map fun i => (i, share i • P)).map fun e => (py.coefficient idx e.1 % py.curve_order) • e.2) =
      (residues py.curve_order idx).map fun x => Shamir.weight (residues py.curve_order idx) x • f.eval x • P := by
    rw [List.map_map, residues, List.map_map]
    refine List.map_congr_left fun i hi => ?_
    simp only [Function.comp_apply]
    rw [← Nat.cast_smul_eq_nsmul (ZMod py.curve_order), ZMod.natCast_mod, hcoeff i hi,
      ← Nat.cast_smul_eq_nsmul (ZMod py.curve_order) (share i), hshare i hi]
    rfl
  have hnd' : (residues py.curve_order idx).Nodup := hnd.map_on (cast_injOn hlt)
  have hlen : (residues py.curve_order idx).length = idx.length := List.length_map _
  rw [hfold, hterms, Shamir.secret_of_points f hnd' (by rwa [hlen]), ← hs, Nat.cast_smul_eq_nsmul]

/-! ## Keys of a polynomial -/

/-- The shares are the values of a polynomial, and the group key is that of its value at zero. -/
structure SharesOf (py : PyEcc E₁ E₂ T) (keys : BeaconKeys E₁) (n t : Nat) (f : (ZMod py.curve_order)[X]) (s : Nat) : Prop where
  threshold : keys.t = t
  degree : f.degree < t
  secret : (s : ZMod py.curve_order) = f.eval 0
  group_pk : keys.group_pk = some (s • py.G1)
  share : ∃ share : Nat → Nat, (∀ i, (share i : ZMod py.curve_order) = f.eval (i : ZMod py.curve_order)) ∧
    keys.shares = (List.range' 1 n).map (fun i => (i, share i)) ∧
    keys.partial_pks = (List.range' 1 n).map fun i => (i, share i • py.G1)

end PyEcc

open PyEcc

variable (py : PyEcc E₁ E₂ T)

/-- The partial signatures of some nodes, in the order in which they signed. -/
def partial_signatures (keys : BeaconKeys E₁) (r : Int) (S : List Nat) : Except Raised (List (Nat × E₂)) :=
  S.mapM fun i => do pure (i, py.partial_sign (← entry keys.shares i) r)

/-- Every quorum makes the secret's multiple of the round's point, which verifies. -/
structure Agrees [DecidableEq T] (keys : BeaconKeys E₁) (n t s : Nat) : Prop where
  combined : ∀ (r : Int) (S : List Nat), S.Nodup → (∀ i ∈ S, 1 ≤ i ∧ i ≤ n) → t ≤ S.length →
    partial_signatures py keys r S >>= py.combine r = .ok (some (s • py.round_point r))
  verified : ∀ r, py.verify_keys (some (s • py.round_point r)) r keys.group_pk = .ok true
  produced : ∀ (r : Int) (signers : List Nat), (∀ i ∈ signers, 1 ≤ i ∧ i ≤ n) → t ≤ signers.dedup.length →
    py.produce keys r signers = .ok (some (s • py.round_point r), true)

variable {py} [Fact py.curve_order.Prime] [DecidableEq E₁] [DecidableEq T]

omit [DecidableEq E₁] in
theorem PyEcc.SharesOf.verified {keys : BeaconKeys E₁} {n t s : Nat} {f : (ZMod py.curve_order)[X]}
    (hk : py.SharesOf keys n t f s) (h : py.Lawful) (r : Int) :
    py.verify_keys (some (s • py.round_point r)) r keys.group_pk = .ok true := by
  rw [hk.group_pk, verify_keys, h.verify_multiple]

omit [DecidableEq E₁] [DecidableEq T] in
theorem PyEcc.SharesOf.combined {keys : BeaconKeys E₁} {n t s : Nat} {f : (ZMod py.curve_order)[X]}
    (hk : py.SharesOf keys n t f s) (h : py.Lawful) (ht : 1 ≤ t) (hn : n < py.curve_order) (r : Int) {S : List Nat}
    (hnd : S.Nodup) (hS : ∀ i ∈ S, 1 ≤ i ∧ i ≤ n) (hlen : t ≤ S.length) :
    partial_signatures py keys r S >>= py.combine r = .ok (some (s • py.round_point r)) := by
  obtain ⟨share, hshare, hshares, -⟩ := hk.share
  have hsigs : partial_signatures py keys r S = .ok (S.map fun i => (i, share i • py.round_point r)) := by
    refine mapM_ok fun i hi => ?_
    rw [hshares, entry_map (List.mem_range'_1.mpr (by have := hS i hi; omega))]
    rfl
  rw [hsigs]
  refine h.combine_shares hnd (List.length_pos_iff.mp (by omega)) (fun i hi => (hS i hi).2.trans_lt hn)
    (fun i _ => hshare i) (hk.degree.trans_le (Nat.cast_le.mpr hlen)) hk.secret r _

theorem set_entry_map {α : Type} (g : Nat → α) (idx : List Nat) (i : Nat) :
    set_entry (idx.map fun i => (i, g i)) i (g i) = (if i ∈ idx then idx else idx ++ [i]).map fun i => (i, g i) := by
  have hany : (idx.map fun i => (i, g i)).any (fun e => decide (e.1 = i)) = decide (i ∈ idx) := by
    rw [List.any_map, Bool.eq_iff_iff, List.any_eq_true, decide_eq_true_eq]
    constructor
    · rintro ⟨j, hj, he⟩
      exact of_decide_eq_true he ▸ hj
    · intro hi
      exact ⟨i, hi, decide_eq_true rfl⟩
  rw [set_entry, hany]
  by_cases hi : i ∈ idx
  · rw [if_pos (decide_eq_true hi), if_pos hi, List.map_map]
    refine List.map_congr_left fun j _ => ?_
    by_cases hji : j = i
    · simp [hji]
    · simp [hji]
  · rw [if_neg (by simpa using hi), if_neg hi, List.map_append]
    rfl

/-- A `dict` of what the signers sent has each of them once. -/
theorem foldl_set_entry {α : Type} (g : Nat → α) (signers : List Nat) : ∃ idx : List Nat, idx.Nodup ∧
    (∀ i, i ∈ idx ↔ i ∈ signers) ∧
    signers.foldl (fun ps i => set_entry ps i (g i)) [] = idx.map fun i => (i, g i) := by
  induction signers using List.reverseRecOn with
  | nil => exact ⟨[], List.nodup_nil, fun i => Iff.rfl, rfl⟩
  | append_singleton signers i ih =>
    obtain ⟨idx, hnd, hmem, he⟩ := ih
    refine ⟨if i ∈ idx then idx else idx ++ [i], ?_, fun j => ?_, ?_⟩
    · split
      · exact hnd
      · next hi => exact List.nodup_append.mpr ⟨hnd, List.nodup_singleton i, fun j hj k hk => by
          rw [List.mem_singleton.mp hk]
          rintro rfl
          exact hi hj⟩
    · rw [List.mem_append, List.mem_singleton, ← hmem]
      split
      · next hi => exact ⟨.inl, fun h => h.elim id fun he => he ▸ hi⟩
      · rw [List.mem_append, List.mem_singleton]
    · rw [List.foldl_append, he, List.foldl_cons, List.foldl_nil, set_entry_map]

omit [DecidableEq E₁] in
theorem PyEcc.SharesOf.produced {keys : BeaconKeys E₁} {n t s : Nat} {f : (ZMod py.curve_order)[X]}
    (hk : py.SharesOf keys n t f s) (h : py.Lawful) (ht : 1 ≤ t) (hn : n < py.curve_order) (r : Int) {signers : List Nat}
    (hS : ∀ i ∈ signers, 1 ≤ i ∧ i ≤ n) (hlen : t ≤ signers.dedup.length) :
    py.produce keys r signers = .ok (some (s • py.round_point r), true) := by
  obtain ⟨share, hshare, hshares, hpks⟩ := hk.share
  obtain ⟨idx, hnd, hmem, hdict⟩ := foldl_set_entry (fun i => share i • py.round_point r) signers
  have hpartials : signers.foldlM (fun (partials : List (Nat × E₂)) i => do
      let sig := py.partial_sign (← entry keys.shares i) r
      let pk ← entry keys.partial_pks i
      pure (if py.verify_partial sig r pk then set_entry partials i sig else partials)) [] =
      (.ok (idx.map fun i => (i, share i • py.round_point r)) : Except Raised _) := by
    rw [← hdict]
    generalize ([] : List (Nat × E₂)) = ps
    clear hlen hmem hdict
    induction signers generalizing ps with
    | nil => rfl
    | cons i signers ih =>
      obtain ⟨hi, hsigners⟩ := List.forall_mem_cons.mp hS
      have hin : i ∈ List.range' 1 n := List.mem_range'_1.mpr (by omega)
      have hverify : py.verify_partial (share i • py.round_point r) r (share i • py.G1) = true :=
        h.verify_multiple (share i) r
      have hstep : (do
          let sig := py.partial_sign (← entry keys.shares i) r
          let pk ← entry keys.partial_pks i
          pure (if py.verify_partial sig r pk then set_entry ps i sig else ps)) =
          (.ok (set_entry ps i (share i • py.round_point r)) : Except Raised _) := by
        rw [hshares, hpks, entry_map hin, entry_map hin]
        exact congrArg Except.ok (if_pos hverify)
      rw [List.foldlM_cons, hstep, List.foldl_cons]
      exact ih hsigners _
  have hperm : idx.length = signers.dedup.length :=
    ((List.perm_ext_iff_of_nodup hnd signers.nodup_dedup).mpr fun i => by rw [hmem, List.mem_dedup]).length_eq
  have htake : (idx.take t).length = t := by rw [List.length_take]; omega
  have hcombine : py.combine r ((idx.take t).map fun i => (i, share i • py.round_point r)) =
      .ok (some (s • py.round_point r)) :=
    h.combine_shares (hnd.sublist (List.take_sublist t idx)) (List.length_pos_iff.mp (by omega))
      (fun i hi => (hS i ((hmem i).mp (List.mem_of_mem_take hi))).2.trans_lt hn) (fun i _ => hshare i)
      (by rw [htake]; exact hk.degree) hk.secret r _
  have henough : ¬ (idx.map fun i => (i, share i • py.round_point r)).length < keys.t := by
    rw [List.length_map, hk.threshold]
    omega
  have hgood := hk.verified h r
  rw [produce, hpartials]
  change (if (idx.map fun i => (i, share i • py.round_point r)).length < keys.t then _ else _) = _
  rw [if_neg henough, hk.threshold, ← List.map_take, hcombine]
  change (do pure (some (s • py.round_point r), ← py.verify_keys (some (s • py.round_point r)) r keys.group_pk)) = _
  rw [hgood]
  rfl

/-! ## The dealer -/

theorem bytes_ok {ks : List Nat} (h : ∀ k ∈ ks, k < 256) : bytes ks = .ok (ks.map UInt8.ofNat) :=
  mapM_ok fun k hk => if_pos (h k hk)

theorem lt_of_bytes {ks : List Nat} {b : List UInt8} (h : bytes ks = .ok b) : ∀ k ∈ ks, k < 256 := by
  intro k hk
  obtain ⟨y, hy⟩ := (mapM_ok_iff _ _).mp ⟨b, h⟩ k hk
  by_contra hlt
  rw [if_neg hlt] at hy
  cases hy

theorem error_of_bytes {ks : List Nat} {e : Raised} (h : bytes ks = .error e) : e = .bytes_range := by
  obtain ⟨k, -, hk⟩ := mapM_error h
  split at hk
  · cases hk
  · exact (Except.error.inj hk).symm

omit [AddCommGroup E₁] [AddCommGroup E₂] [CommGroup T] [Fact py.curve_order.Prime] [DecidableEq E₁] [DecidableEq T] in
/-- The coefficients that are drawn under a prefix. -/
theorem draw_ok [Crypto] {seed : List UInt8} {prefixes : List Nat} {t : Nat} (hp : ∀ k ∈ prefixes, k < 256) (ht : t ≤ 256) :
    ((List.range t).mapM fun k => do pure (py.scalar (seed ++ (← bytes (prefixes ++ [k]))))) =
      (.ok ((List.range t).map fun k => py.scalar (seed ++ (prefixes ++ [k]).map UInt8.ofNat)) : Except Raised _) := by
  refine mapM_ok fun k hk => ?_
  rw [bytes_ok]
  · rfl
  · intro j hj
    rcases List.mem_append.mp hj with hj | hj
    · exact hp j hj
    · rw [List.mem_singleton.mp hj]
      exact (List.mem_range.mp hk).trans_le ht

variable (py) in
/-- What is drawn under a prefix. -/
def drawn [Crypto] (seed : List UInt8) (prefixes : List Nat) (t : Nat) : List Nat :=
  (List.range t).map fun k => py.scalar (seed ++ (prefixes ++ [k]).map UInt8.ofNat)

omit [AddCommGroup E₁] [AddCommGroup E₂] [CommGroup T] [Fact py.curve_order.Prime] [DecidableEq E₁] [DecidableEq T] in
variable (py) in
theorem drawn_cons [Crypto] (seed : List UInt8) (prefixes : List Nat) {t : Nat} (ht : 1 ≤ t) : ∃ rest,
    drawn py seed prefixes t = py.scalar (seed ++ (prefixes ++ [0]).map UInt8.ofNat) :: rest := by
  obtain ⟨t, rfl⟩ : ∃ k, t = k + 1 := ⟨t - 1, by omega⟩
  exact ⟨_, by rw [drawn, List.range_succ_eq_map, List.map_cons]⟩

variable (py) in
def dealt_secret [Crypto] (seed : List UInt8) : Nat := py.scalar (seed ++ [0])

variable (py) in
/-- The keys of one polynomial. -/
def keys_of (n t secret : Nat) (share : Nat → Nat) : BeaconKeys E₁ where
  group_pk := some (secret • py.G1)
  shares := (List.range' 1 n).map fun i => (i, share i)
  partial_pks := (List.range' 1 n).map fun i => (i, share i • py.G1)
  t := t
  n := n

omit [AddCommGroup E₂] [CommGroup T] [Fact py.curve_order.Prime] [DecidableEq E₁] [DecidableEq T] in
theorem deal_eq [Crypto] {n t : Nat} (seed : List UInt8) (ht : 1 ≤ t) (hb : t ≤ 256) :
    py.deal n t seed = .ok (keys_of py n t (dealt_secret py seed) (py.share_of (drawn py seed [] t))) := by
  obtain ⟨rest, hcoeffs⟩ := drawn_cons py seed [] ht
  have hdraw : ((List.range t).mapM fun k => do pure (py.scalar (seed ++ (← bytes [k])))) =
      (.ok (drawn py seed [] t) : Except Raised _) := draw_ok (fun k hk => absurd hk List.not_mem_nil) hb
  have hitem : item (drawn py seed [] t) 0 = .ok (dealt_secret py seed) := by
    rw [hcoeffs]
    rfl
  rw [deal, hdraw]
  change item (drawn py seed [] t) 0 >>= _ = _
  rw [hitem]
  simp only [keys_of, List.map_map]
  rfl

omit [AddCommGroup E₁] [AddCommGroup E₂] [CommGroup T] [Fact py.curve_order.Prime] [DecidableEq E₁] [DecidableEq T] in
theorem length_drawn [Crypto] (seed : List UInt8) (prefixes : List Nat) (t : Nat) : (drawn py seed prefixes t).length = t := by
  rw [drawn, List.length_map, List.length_range]

omit [AddCommGroup E₁] [AddCommGroup E₂] [CommGroup T] [DecidableEq E₁] [DecidableEq T] in
theorem degree_drawn [Crypto] (seed : List UInt8) (prefixes : List Nat) (t : Nat) :
    (Shamir.poly 0 (residues py.curve_order (drawn py seed prefixes t))).degree < t :=
  Shamir.degree_poly_lt _ (by rw [residues, List.length_map, length_drawn, Nat.zero_add])

omit [AddCommGroup E₁] [AddCommGroup E₂] [CommGroup T] [DecidableEq E₁] [DecidableEq T] in
variable (py) in
theorem secret_drawn [Crypto] (seed : List UInt8) (prefixes : List Nat) {t : Nat} (ht : 1 ≤ t) :
    (Shamir.poly 0 (residues py.curve_order (drawn py seed prefixes t))).eval 0 =
      (py.scalar (seed ++ (prefixes ++ [0]).map UInt8.ofNat) : ZMod py.curve_order) := by
  obtain ⟨rest, hcoeffs⟩ := drawn_cons py seed prefixes ht
  rw [hcoeffs, residues, List.map_cons, Shamir.eval_zero_poly]

omit [AddCommGroup E₂] [CommGroup T] [DecidableEq E₁] [DecidableEq T] in
theorem deal_shares [Crypto] {n t : Nat} (seed : List UInt8) (ht : 1 ≤ t) :
    py.SharesOf (keys_of py n t (dealt_secret py seed) (py.share_of (drawn py seed [] t))) n t
      (Shamir.poly 0 (residues py.curve_order (drawn py seed [] t))) (dealt_secret py seed) where
  threshold := rfl
  degree := degree_drawn seed [] t
  secret := by rw [secret_drawn py seed [] ht]; rfl
  group_pk := rfl
  share := ⟨_, fun i => (cast_share_of _ i).trans (Shamir.eval_poly _ 0 _).symm, rfl, rfl⟩

/-! ## The distributed generation -/

variable (py) in
def dealer_of [Crypto] (seed : List UInt8) (t i : Nat) : Dealer E₁ where
  idx := i
  coeffs := drawn py seed [i] t
  commitments := (drawn py seed [i] t).map (· • py.G1)

omit [AddCommGroup E₂] [CommGroup T] [Fact py.curve_order.Prime] [DecidableEq E₁] [DecidableEq T] in
theorem create_eq [Crypto] {seed : List UInt8} {t i : Nat} (hi : i < 256) (ht : t ≤ 256) :
    py.create i t seed = .ok (dealer_of py seed t i) := by
  have hdraw : ((List.range t).mapM fun j => do pure (py.scalar (seed ++ (← bytes [i, j])))) =
      (.ok (drawn py seed [i] t) : Except Raised _) := draw_ok (fun k hk => List.mem_singleton.mp hk ▸ hi) ht
  rw [create, hdraw]
  rfl

omit [DecidableEq E₁] [DecidableEq T] in
/-- The commitments of a polynomial, each to its power, add up to the commitment of the value. -/
theorem sum_commitments (h : py.Lawful) (coeffs : List Nat) (m k : Nat) :
    (((coeffs.map (· • py.G1)).zipIdx k).map fun c => (m ^ c.2 % py.curve_order) • c.1).sum =
      (let _ := AddCommGroup.zmodModule h.order₁
       Shamir.value (m : ZMod py.curve_order) k (residues py.curve_order coeffs) • py.G1) := by
  let _ := AddCommGroup.zmodModule h.order₁
  induction coeffs generalizing k with
  | nil => exact (zero_smul (ZMod py.curve_order) py.G1).symm
  | cons c cs ih =>
    rw [List.map_cons, List.zipIdx_cons, List.map_cons, List.sum_cons, ih]
    change _ = (c * (m : ZMod py.curve_order) ^ k + Shamir.value _ (k + 1) (residues py.curve_order cs)) • py.G1
    rw [add_smul, ← Nat.cast_smul_eq_nsmul (ZMod py.curve_order) (m ^ k % py.curve_order),
      ← Nat.cast_smul_eq_nsmul (ZMod py.curve_order) c, smul_smul, ZMod.natCast_mod, Nat.cast_pow, mul_comm]

omit [DecidableEq T] in
/-- An honest dealer's shares pass. -/
theorem verify_share_honest (h : py.Lawful) {coeffs : List Nat} (hne : coeffs ≠ []) (m : Nat) :
    py.verify_share (py.share_of coeffs m) m (coeffs.map (· • py.G1)) = true := by
  let _ := AddCommGroup.zmodModule h.order₁
  have hne' : (coeffs.map (· • py.G1)).zipIdx ≠ [] := by simpa using hne
  rw [verify_share, decide_eq_true_eq, foldl_add_term hne', sum_commitments h,
    ← Nat.cast_smul_eq_nsmul (ZMod py.curve_order), cast_share_of]

variable (py) in
/-- What the dealers share together. -/
noncomputable def joint [Crypto] (seed : List UInt8) (n t : Nat) : (ZMod py.curve_order)[X] :=
  ((List.range' 1 n).map fun i => Shamir.poly 0 (residues py.curve_order (drawn py seed [i] t))).sum

variable (py) in
def dkg_secret [Crypto] (n : Nat) (seed : List UInt8) : Nat :=
  ((List.range' 1 n).map fun i => py.scalar (seed ++ [UInt8.ofNat i, 0])).sum

variable (py) in
def joint_share [Crypto] (seed : List UInt8) (n t m : Nat) : Nat :=
  (List.range' 1 n).foldl (fun acc i => (acc + py.share_of (drawn py seed [i] t) m) % py.curve_order) 0

omit [AddCommGroup E₁] [AddCommGroup E₂] [CommGroup T] [DecidableEq E₁] [DecidableEq T] in
theorem cast_joint_share [Crypto] (seed : List UInt8) (n t m : Nat) :
    (joint_share py seed n t m : ZMod py.curve_order) = (joint py seed n t).eval (m : ZMod py.curve_order) := by
  have hfold (is : List Nat) (acc : Nat) :
      ((is.foldl (fun acc i => (acc + py.share_of (drawn py seed [i] t) m) % py.curve_order) acc : Nat) : ZMod py.curve_order) =
        acc + (is.map fun i => (Shamir.poly 0 (residues py.curve_order (drawn py seed [i] t))).eval (m : ZMod py.curve_order)).sum := by
    induction is generalizing acc with
    | nil => exact (add_zero _).symm
    | cons i is ih =>
      rw [List.foldl_cons, ih, ZMod.natCast_mod, Nat.cast_add, cast_share_of, List.map_cons, List.sum_cons, ← add_assoc,
        Shamir.eval_poly]
  have h := hfold (List.range' 1 n) 0
  rw [Nat.cast_zero, zero_add] at h
  rw [joint_share, h, joint, eval_listSum, List.map_map]
  rfl

omit [DecidableEq T] in
/-- The participant takes every dealer's share. -/
theorem share_sum_eq [Crypto] (h : py.Lawful) (seed : List UInt8) {t : Nat} (ht : 1 ≤ t) (n m : Nat) :
    py.share_sum ((List.range' 1 n).map (dealer_of py seed t)) m = .ok (joint_share py seed n t m) := by
  have hne (i : Nat) : drawn py seed [i] t ≠ [] := by
    rw [← List.length_pos_iff, length_drawn]
    exact ht
  have hfold (is : List Nat) (acc : Nat) : (is.map (dealer_of py seed t)).foldlM (fun acc d =>
      let s := py.share_for d m
      if py.verify_share s m d.commitments then .ok ((acc + s) % py.curve_order) else .error (.bad_share d.idx m)) acc =
      (.ok (is.foldl (fun acc i => (acc + py.share_of (drawn py seed [i] t) m) % py.curve_order) acc) : Except Raised Nat) := by
    induction is generalizing acc with
    | nil => rfl
    | cons i is ih =>
      rw [List.map_cons, List.foldlM_cons, List.foldl_cons, ← ih]
      have hgood : py.verify_share (py.share_for (dealer_of py seed t i) m) m (dealer_of py seed t i).commitments = true :=
        verify_share_honest h (hne i) m
      simp only [hgood, if_true]
      rfl
  exact hfold _ 0

omit [DecidableEq T] in
theorem run_dkg_eq [Crypto] (h : py.Lawful) {n t : Nat} (seed : List UInt8) (ht : 1 ≤ t) (htn : t ≤ n) (hb : n ≤ 255) :
    py.run_dkg n t seed = .ok (keys_of py n t (dkg_secret py n seed) (joint_share py seed n t)) := by
  have hdealers : (List.range' 1 n).mapM (fun i => py.create i t seed) =
      .ok ((List.range' 1 n).map (dealer_of py seed t)) :=
    mapM_ok fun i hi => create_eq (by have := List.mem_range'_1.mp hi; omega) (by omega)
  have hshares : ((List.range' 1 n).mapM fun m => do
      pure (m, ← py.share_sum ((List.range' 1 n).map (dealer_of py seed t)) m)) =
      (.ok ((List.range' 1 n).map fun m => (m, joint_share py seed n t m)) : Except Raised _) :=
    mapM_ok fun m _ => by
      rw [share_sum_eq h seed ht]
      rfl
  have hitem : ∀ d ∈ (List.range' 1 n).map (dealer_of py seed t), item d.commitments 0 =
      .ok (py.scalar (seed ++ [UInt8.ofNat d.idx, 0]) • py.G1) := by
    intro d hd
    obtain ⟨i, -, rfl⟩ := List.mem_map.mp hd
    obtain ⟨rest, hcoeffs⟩ := drawn_cons py seed [i] ht
    rw [dealer_of, hcoeffs]
    rfl
  have hne : (List.range' 1 n).map (dealer_of py seed t) ≠ [] := by
    rw [← List.length_pos_iff, List.length_map, List.length_range']
    omega
  have hpk : ((List.range' 1 n).map (dealer_of py seed t)).foldlM
      (fun acc d => do pure (add_term acc (← item d.commitments 0))) none =
      (.ok (some (dkg_secret py n seed • py.G1)) : Except Raised _) := by
    rw [foldlM_add_term hitem hne, dkg_secret, List.sum_smul, List.map_map, List.map_map]
    rfl
  rw [run_dkg, hdealers]
  change (do
    let shares ← (List.range' 1 n).mapM fun m => do
      pure (m, ← py.share_sum ((List.range' 1 n).map (dealer_of py seed t)) m)
    let group_pk ← ((List.range' 1 n).map (dealer_of py seed t)).foldlM
      (fun acc (d : Dealer E₁) => do pure (add_term acc (← item d.commitments 0))) none
    pure (BeaconKeys.mk group_pk shares (shares.map fun (e : Nat × Nat) => (e.1, e.2 • py.G1)) t n)) = _
  rw [hshares, hpk]
  simp only [keys_of]
  change Except.ok _ = _
  rw [List.map_map]
  rfl

omit [AddCommGroup E₂] [CommGroup T] [DecidableEq E₁] [DecidableEq T] in
theorem dkg_shares [Crypto] {n t : Nat} (seed : List UInt8) (ht : 1 ≤ t) :
    py.SharesOf (keys_of py n t (dkg_secret py n seed) (joint_share py seed n t)) n t (joint py seed n t)
      (dkg_secret py n seed) where
  threshold := rfl
  degree := by
    refine List.sum_induction (fun f : (ZMod py.curve_order)[X] => f.degree < t) ?_ ?_ ?_
    · exact fun f g hf hg => (degree_add_le f g).trans_lt (max_lt hf hg)
    · exact degree_zero.trans_lt (WithBot.bot_lt_coe t)
    · intro f hf
      obtain ⟨i, -, rfl⟩ := List.mem_map.mp hf
      exact degree_drawn seed [i] t
  secret := by
    rw [dkg_secret, joint, eval_listSum, List.map_map, Nat.cast_list_sum, List.map_map]
    refine congrArg List.sum (List.map_congr_left fun i _ => ?_)
    exact (secret_drawn py seed [i] ht).symm
  group_pk := rfl
  share := ⟨_, cast_joint_share seed n t, rfl, rfl⟩

/-! ## Every quorum agrees -/

omit [DecidableEq E₁] in
theorem PyEcc.SharesOf.agrees {keys : BeaconKeys E₁} {n t s : Nat} {f : (ZMod py.curve_order)[X]}
    (hk : py.SharesOf keys n t f s) (h : py.Lawful) (ht : 1 ≤ t) (hn : n < py.curve_order) : Agrees py keys n t s :=
  ⟨fun r _ hnd hS hlen => hk.combined h ht hn r hnd hS hlen, hk.verified h, fun r _ hS hlen => hk.produced h ht hn r hS hlen⟩

omit [AddCommGroup E₂] [CommGroup T] [DecidableEq E₁] [DecidableEq T] [Fact py.curve_order.Prime] in
/-- The dealer writes a coefficient's number in one byte. -/
theorem threshold_of_deal [Crypto] {n t : Nat} {seed : List UInt8} {keys : BeaconKeys E₁}
    (h : py.deal n t seed = .ok keys) : t ≤ 256 := by
  obtain ⟨coeffs, hcoeffs, -⟩ := (bind_eq_ok _ _ _).mp h
  by_contra hlt
  obtain ⟨c, hc⟩ := (mapM_ok_iff _ _).mp ⟨coeffs, hcoeffs⟩ 256 (List.mem_range.mpr (by omega))
  obtain ⟨b, hb, -⟩ := (bind_eq_ok _ _ _).mp hc
  exact absurd (lt_of_bytes hb 256 (List.mem_singleton_self _)) (by decide)

omit [AddCommGroup E₂] [CommGroup T] [DecidableEq E₁] [DecidableEq T] [Fact py.curve_order.Prime] in
/-- So does each participant, with its own number in another. -/
theorem number_of_dealers [Crypto] {n t : Nat} {seed : List UInt8} {dealers : List (Dealer E₁)} (ht : 1 ≤ t)
    (h : (List.range' 1 n).mapM (fun i => py.create i t seed) = .ok dealers) : n ≤ 255 := by
  by_contra hlt
  obtain ⟨d, hd⟩ := (mapM_ok_iff _ _).mp ⟨dealers, h⟩ 256 (List.mem_range'_1.mpr (by omega))
  obtain ⟨coeffs, hcoeffs, -⟩ := (bind_eq_ok _ _ _).mp hd
  obtain ⟨c, hc⟩ := (mapM_ok_iff _ _).mp ⟨coeffs, hcoeffs⟩ 0 (List.mem_range.mpr ht)
  obtain ⟨b, hb, -⟩ := (bind_eq_ok _ _ _).mp hc
  exact absurd (lt_of_bytes hb 256 List.mem_cons_self) (by decide)

theorem error_of_bind {α β : Type} {x : Except Raised α} {f : α → β} {e : Raised} (h : (do pure (f (← x))) = .error e) :
    x = .error e := by
  cases x with
  | error e' => exact congrArg _ (Except.error.inj h)
  | ok a => cases h

omit [AddCommGroup E₂] [CommGroup T] [DecidableEq E₁] [DecidableEq T] [Fact py.curve_order.Prime] in
theorem create_error [Crypto] {seed : List UInt8} {t i : Nat} {e : Raised} (h : py.create i t seed = .error e) :
    e = .bytes_range := by
  obtain ⟨k, -, hk⟩ := mapM_error (error_of_bind h)
  exact error_of_bytes (error_of_bind hk)

omit [DecidableEq T] [Fact py.curve_order.Prime] in
/-- No participant rejects a share: either the numbers fit in their bytes and the keys are made, or they do not. -/
theorem run_dkg_never_rejects [Crypto] (h : py.Lawful) {n t : Nat} (seed : List UInt8) (ht : 1 ≤ t) (htn : t ≤ n)
    (dealer participant : Nat) : py.run_dkg n t seed ≠ .error (.bad_share dealer participant) := by
  have := Fact.mk h.prime
  intro hrun
  cases hdealers : (List.range' 1 n).mapM (fun i => py.create i t seed) with
  | error e =>
    obtain ⟨i, -, hi⟩ := mapM_error hdealers
    rw [run_dkg, hdealers, create_error hi] at hrun
    cases hrun
  | ok dealers =>
    rw [run_dkg_eq h seed ht htn (number_of_dealers ht hdealers)] at hrun
    cases hrun

omit [Fact py.curve_order.Prime] in
/-- The dealt keys agree for a threshold of at most 256, and the generated keys for at most 255 participants. Past
that a number does not fit in its byte and nothing is made. -/
theorem beacon_agrees_iff [Crypto] (h : py.Lawful) (n t : Nat) (seed : List UInt8) (ht : 1 ≤ t) (htn : t ≤ n)
    (hn : n < py.curve_order) :
    ((∃ keys, py.deal n t seed = .ok keys ∧ Agrees py keys n t (dealt_secret py seed)) ↔ t ≤ 256) ∧
    ((∃ keys, py.run_dkg n t seed = .ok keys ∧ Agrees py keys n t (dkg_secret py n seed)) ↔ n ≤ 255) ∧
    ∀ dealer participant, py.run_dkg n t seed ≠ .error (.bad_share dealer participant) := by
  have := Fact.mk h.prime
  refine ⟨⟨?_, fun hb => ?_⟩, ⟨?_, fun hb => ?_⟩, run_dkg_never_rejects h seed ht htn⟩
  · rintro ⟨keys, hdeal, -⟩
    exact threshold_of_deal hdeal
  · exact ⟨_, deal_eq seed ht hb, (deal_shares seed ht).agrees h ht hn⟩
  · rintro ⟨keys, hrun, -⟩
    obtain ⟨dealers, hdealers, -⟩ := (bind_eq_ok _ _ _).mp hrun
    exact number_of_dealers ht hdealers
  · exact ⟨_, run_dkg_eq h seed ht htn hb, (dkg_shares seed ht).agrees h ht hn⟩

end Any

/-! ## A curve to run it on -/

theorem ofNat_ne_one {n c : Nat} [c.AtLeastTwo] (h : c % n ≠ 1 % n) : (OfNat.ofNat c : ZMod n) ≠ 1 := by
  intro he
  rw [← Nat.cast_ofNat, ← Nat.cast_one] at he
  exact h ((ZMod.natCast_eq_natCast_iff' _ _ _).mp he)

/-- The order of the curve, by the primes of its predecessor. -/
theorem prime_order : Nat.Prime 52435875175126190479447740508185965837690552500527637822603658699938581184513 := by
  refine lucas_primality _ (7 : ZMod 52435875175126190479447740508185965837690552500527637822603658699938581184513)
    (by norm_num only [Nat.reduceSub]; reduce_mod_char) fun q hq hdvd => ?_
  have hfactors : 52435875175126190479447740508185965837690552500527637822603658699938581184513 - 1 =
      2 ^ 32 * 3 ^ 1 * 11 ^ 1 * 19 ^ 1 * 10177 ^ 1 * 125527 ^ 1 * 859267 ^ 1 * 906349 ^ 2 * 2508409 ^ 1 * 2529403 ^ 1 *
        52437899 ^ 1 * 254760293 ^ 2 := by
    norm_num
  have heq {p k : Nat} (hp : p.Prime) (h : q ∣ p ^ k) : q = p :=
    (Nat.prime_dvd_prime_iff_eq hq hp).mp (hq.dvd_of_dvd_pow h)
  have hq' : q ∈ [2, 3, 11, 19, 10177, 125527, 859267, 906349, 2508409, 2529403, 52437899, 254760293] := by
    rw [hfactors] at hdvd
    simp only [hq.dvd_mul] at hdvd
    rcases hdvd with (((((((((((h | h) | h) | h) | h) | h) | h) | h) | h) | h) | h) | h)
    all_goals
      rw [heq (by norm_num) h]
      decide
  fin_cases hq' <;> norm_num only [Nat.reduceSub, Nat.reduceDiv] <;> reduce_mod_char
  all_goals exact ofNat_ne_one (by norm_num)

open scoped Toy

namespace Toy

/-- Scalars for points: the groups have the curve's order, and the pairing multiplies. -/
def curve : PyEcc (ZMod 52435875175126190479447740508185965837690552500527637822603658699938581184513)
    (ZMod 52435875175126190479447740508185965837690552500527637822603658699938581184513)
    (Multiplicative (ZMod 52435875175126190479447740508185965837690552500527637822603658699938581184513)) where
  curve_order := 52435875175126190479447740508185965837690552500527637822603658699938581184513
  G1 := 1
  hash_to_G2 b := (from_be_bytes (sha256 b).val : Nat)
  pairing P R := .ofAdd (P * R)

theorem curve_lawful : curve.Lawful where
  prime := prime_order
  order₁ P := by rw [nsmul_eq_mul, curve, ZMod.natCast_self, zero_mul]
  order₂ P := by rw [nsmul_eq_mul, curve, ZMod.natCast_self, zero_mul]
  pairing_left P Q R := congrArg Multiplicative.ofAdd (add_mul P Q R)
  pairing_right P R S := congrArg Multiplicative.ofAdd (mul_add P R S)

end Toy

theorem beacon_agrees_five : ∃ keys, Toy.curve.run_dkg 5 3 [] = .ok keys ∧ Agrees Toy.curve keys 5 3 (dkg_secret Toy.curve 5 []) :=
  (beacon_agrees_iff Toy.curve_lawful 5 3 [] (by decide) (by decide) (by unfold Toy.curve; norm_num)).2.1.mpr (by decide)

/-- With 256 participants the generation raises, and so does the dealer for a threshold of 257. -/
theorem beacon_byte_overflow :
    (¬ ∃ keys, Toy.curve.run_dkg 256 1 [] = .ok keys ∧ Agrees Toy.curve keys 256 1 (dkg_secret Toy.curve 256 [])) ∧
    ¬ ∃ keys, Toy.curve.deal 257 257 [] = .ok keys ∧ Agrees Toy.curve keys 257 257 (dealt_secret Toy.curve []) := by
  constructor
  · rintro ⟨keys, hrun, -⟩
    obtain ⟨dealers, hdealers, -⟩ := (bind_eq_ok _ _ _).mp hrun
    exact absurd (number_of_dealers (by decide) hdealers) (by decide)
  · rintro ⟨keys, hdeal, -⟩
    exact absurd (threshold_of_deal hdeal) (by decide)

end rig

end Sestrian
