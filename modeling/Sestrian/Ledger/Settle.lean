import Sestrian.Ledger.Apply

/-!
# The sweep of expired challenges

Each expired challenge leaves the books with one payout. An entry that loses is revoked. As long
as no two challenges name the same entry, the sweep acts on each of them by itself.
-/

namespace Sestrian

/-- An entry after a challenge against it was upheld. -/
def revoke (e : RegistryEntry) : RegistryEntry := { e with status := .revoked, stake := 0 }

/-- What an expired challenge pays, and to whom. -/
def payout (registry : Dict RegistryEntry) (ch : Challenge) : Option (String × UInt64) :=
  registry[ch.data_id]?.map fun e =>
    if ch.upheld then (ch.challenger, saturating_add e.stake ch.stake) else (e.owner, ch.stake)

def is_expired (height : UInt64) (c : String × Challenge) : Bool := c.2.expiry ≤ height

def payouts (registry : Dict RegistryEntry) (height : UInt64) (cs : List (String × Challenge)) : List (String × UInt64) :=
  (cs.filter (is_expired height)).filterMap fun c => payout registry c.2

/-- One of the challenges leaves the books. -/
def swept (height : UInt64) (cs : List (String × Challenge)) (cid : String) : Bool :=
  cs.any fun c => decide (c.1 = cid) && is_expired height c

/-- One of the challenges ends the entry. -/
def ended (height : UInt64) (cs : List (String × Challenge)) (k : String) : Bool :=
  cs.any fun c => decide (c.2.data_id = k) && c.2.upheld && is_expired height c

theorem swept_cons (height : UInt64) (c : String × Challenge) (cs : List (String × Challenge)) (cid : String) :
    swept height (c :: cs) cid = (decide (c.1 = cid) && is_expired height c || swept height cs cid) := List.any_cons

theorem ended_cons (height : UInt64) (c : String × Challenge) (cs : List (String × Challenge)) (k : String) :
    ended height (c :: cs) k =
      (decide (c.2.data_id = k) && c.2.upheld && is_expired height c || ended height cs k) := List.any_cons

namespace TokenLedger

theorem credit_balances {led led' : TokenLedger} (h : led.balances = led'.balances) (a : String) (n : UInt64) :
    (led.credit a n).balances = (led'.credit a n).balances := by
  unfold credit balance
  rw [h]
  split
  · rfl
  · exact h

theorem credit_all_balances {led led' : TokenLedger} (h : led.balances = led'.balances) (pays : List (String × UInt64)) :
    (led.credit_all pays).balances = (led'.credit_all pays).balances := by
  unfold credit_all
  induction pays generalizing led led' with
  | nil => exact h
  | cons p pays ih => exact ih (credit_balances h p.1 p.2)

/-! ## One challenge -/

variable {height : UInt64} {led : TokenLedger} {c : String × Challenge}

theorem resolve_open (h : is_expired height c = false) : led.resolve_challenge height c = led := by
  unfold resolve_challenge
  rw [if_pos]
  simpa [is_expired] using h

theorem resolve_challenges (h : is_expired height c) (k : String) :
    (led.resolve_challenge height c).challenges[k]? = if c.1 = k then none else led.challenges[k]? := by
  have hkept : (led.settle_challenge c.2).challenges = led.challenges := by
    unfold settle_challenge
    split
    · rfl
    · split <;> exact (Moved.credit _ _ _).challenges
  have hexp : ¬ c.2.expiry > height := by simpa [is_expired] using h
  unfold resolve_challenge
  rw [if_neg hexp]
  simp only [hkept]
  exact SumMap.get_erase _ _ _

theorem resolve_registry (h : is_expired height c) (k : String) :
    (led.resolve_challenge height c).registry[k]? =
      if c.2.data_id = k ∧ c.2.upheld then led.registry[k]?.map revoke else led.registry[k]? := by
  have hexp : ¬ c.2.expiry > height := by simpa [is_expired] using h
  unfold resolve_challenge settle_challenge
  rw [if_neg hexp]
  simp only
  split
  · rename_i hnone
    split
    · rename_i hk
      rw [← hk.1, hnone]
      rfl
    · rfl
  · rename_i e he
    by_cases hup : c.2.upheld = true
    · simp only [hup, if_true, and_true, (Moved.credit _ _ _).registry, SumMap.get_insert]
      split
      · rename_i hk
        rw [← hk, he]
        rfl
      · rfl
    · simp only [hup, Bool.false_eq_true, if_false, and_false, (Moved.credit _ _ _).registry]

theorem resolve_balances (h : is_expired height c) :
    (led.resolve_challenge height c).balances = (led.credit_all (payout led.registry c.2).toList).balances := by
  have hexp : ¬ c.2.expiry > height := by simpa [is_expired] using h
  unfold resolve_challenge settle_challenge payout
  rw [if_neg hexp]
  simp only
  split
  · rename_i hnone
    rw [hnone]
    rfl
  · rename_i e he
    rw [he, Option.map_some, Option.toList_some]
    split
    · refine credit_balances ?_ _ _
      rfl
    · rfl

/-! ## The sweep -/

/-- No two challenges of the list are about the same entry. -/
def Apart (cs : List (String × Challenge)) : Prop := cs.Pairwise fun c d => c.2.data_id ≠ d.2.data_id

theorem sweep_challenges (cs : List (String × Challenge)) (led : TokenLedger) (k : String) :
    (cs.foldl (resolve_challenge height) led).challenges[k]? = if swept height cs k then none else led.challenges[k]? := by
  induction cs generalizing led with
  | nil => rfl
  | cons c cs ih =>
    rw [List.foldl_cons, ih]
    rw [swept_cons]
    by_cases he : is_expired height c = true
    · rw [resolve_challenges he]
      by_cases hk : c.1 = k <;> simp [hk, he]
    · rw [resolve_open (by simpa using he)]
      simp [he]

theorem sweep_registry (cs : List (String × Challenge)) (led : TokenLedger) (k : String) :
    (cs.foldl (resolve_challenge height) led).registry[k]? =
      if ended height cs k then led.registry[k]?.map revoke else led.registry[k]? := by
  have htwice (o : Option RegistryEntry) : (o.map revoke).map revoke = o.map revoke := by
    cases o <;> rfl
  induction cs generalizing led with
  | nil => rfl
  | cons c cs ih =>
    rw [List.foldl_cons, ih]
    rw [ended_cons]
    by_cases he : is_expired height c = true
    · rw [resolve_registry he]
      by_cases hk : c.2.data_id = k ∧ c.2.upheld = true
      · simp [hk, he, htwice]
      · have hoff : (decide (c.2.data_id = k) && c.2.upheld && is_expired height c) = false := by
          simpa [he] using hk
        rw [if_neg hk]
        simp only [hoff, Bool.false_or]
    · rw [resolve_open (by simpa using he)]
      simp [he]

theorem sweep_balances (cs : List (String × Challenge)) (led : TokenLedger) (hap : Apart cs) :
    (cs.foldl (resolve_challenge height) led).balances =
      (led.credit_all (payouts led.registry height cs)).balances := by
  induction cs generalizing led with
  | nil => rfl
  | cons c cs ih =>
    obtain ⟨hc, hcs⟩ := List.pairwise_cons.mp hap
    rw [List.foldl_cons, ih _ hcs]
    cases he : is_expired height c with
    | false => rw [resolve_open he, payouts, payouts, List.filter_cons_of_neg (by simp [he])]
    | true =>
      -- the entries of the others are as they were
      have hsame : payouts (led.resolve_challenge height c).registry height cs = payouts led.registry height cs := by
        unfold payouts
        refine List.filterMap_congr fun d hd => ?_
        unfold payout
        rw [resolve_registry he, if_neg]
        rintro ⟨hk, -⟩
        exact hc d (List.mem_of_mem_filter hd) hk
      have hcons : payouts led.registry height (c :: cs) =
          (payout led.registry c.2).toList ++ payouts led.registry height cs := by
        unfold payouts
        rw [List.filter_cons_of_pos he, List.filterMap_cons]
        cases payout led.registry c.2 <;> rfl
      rw [hsame, hcons, credit_all_balances (resolve_balances he)]
      unfold credit_all
      rw [List.foldl_append]

end TokenLedger

end Sestrian
