import Sestrian.Ledger.Booked
import Sestrian.Ledger.Settle

/-!
# The challenge market

What holds of the open challenges and of the entries after every chain of accepted blocks.
-/

open Check

namespace Sestrian

open BlockTree TokenLedger

variable [Crypto]

/-! ## Votes -/

/-- A juror's vote on the chain: its sender proposed one of the last blocks before it. -/
def Voted (chain : List Block) (cid v : String) : Prop :=
  ∃ before b after t, chain = before ++ b :: after ∧ AccountTx.DataVote t ∈ account_txs b ∧ t.challenge_id = cid ∧
    address t.voter_pub = v ∧ ∃ p ∈ before.reverse.take PROPOSER_LOOKBACK, p.header.proposer = t.voter_pub

theorem Voted.extend {chain : List Block} {cid v : String} (h : Voted chain cid v) (b : Block) :
    Voted (chain ++ [b]) cid v := by
  obtain ⟨before, x, after, t, rfl, h⟩ := h
  exact ⟨before, x, after ++ [b], t, by simp, h⟩

omit [Crypto] in
theorem mem_jurors_of {chain : List Block} {pub : String} :
    pub ∈ jurors_of chain ↔ ∃ p ∈ chain.reverse.take PROPOSER_LOOKBACK, p.header.proposer = pub := by
  have hfold (xs : List String) (s : StrSet) : pub ∈ xs.foldl (fun s p => s.insert p) s ↔ pub ∈ s ∨ pub ∈ xs := by
    induction xs generalizing s with
    | nil => simp
    | cons x xs ih =>
      rw [List.foldl_cons, ih, Std.ExtTreeSet.mem_insert, compare_eq_iff_eq, List.mem_cons]
      constructor
      · rintro ((h | h) | h)
        · exact .inr (.inl h.symm)
        · exact .inl h
        · exact .inr (.inr h)
      · rintro (h | h | h)
        · exact .inl (.inr h)
        · exact .inl (.inl h.symm)
        · exact .inr h
  unfold jurors_of
  rw [hfold, List.mem_map]
  simp

/-- A list of votes: sorted, and nobody votes twice. -/
structure Ballot (votes : List String) : Prop where
  sorted : votes.Pairwise (· ≤ ·)
  nodup : votes.Nodup

omit [Crypto] in
theorem mem_add_vote {votes : List String} {v w : String} :
    w ∈ (votes ++ [v]).insertionSort (· ≤ ·) ↔ w ∈ votes ∨ w = v := by
  rw [List.mem_insertionSort, List.mem_append, List.mem_singleton]

omit [Crypto] in
theorem Ballot.add {votes : List String} (h : Ballot votes) {v : String} (hv : v ∉ votes) :
    Ballot ((votes ++ [v]).insertionSort (· ≤ ·)) := by
  refine ⟨List.pairwise_insertionSort _ _, (List.perm_insertionSort _ _).nodup_iff.mpr ?_⟩
  rw [List.nodup_append]
  exact ⟨h.nodup, List.nodup_singleton v, fun a ha b hb => by
    obtain rfl := List.mem_singleton.mp hb
    exact fun he => hv (he ▸ ha)⟩

/-! ## Open challenges -/

structure Open (chain : List Block) (led : TokenLedger) (cid : String) (ch : Challenge) : Prop where
  active : led.registry[ch.data_id]?.map (·.status) = some .active
  votes_for : Ballot ch.votes_for
  votes_against : Ballot ch.votes_against
  disjoint : ∀ v ∈ ch.votes_for, v ∉ ch.votes_against
  challenger : ch.challenger ∉ ch.votes_for ++ ch.votes_against
  owner : ∀ v ∈ ch.votes_for ++ ch.votes_against, led.registry[ch.data_id]?.map (·.owner) ≠ some v
  jurors : ∀ v ∈ ch.votes_for ++ ch.votes_against, Voted chain cid v

structure Market (chain : List Block) (led : TokenLedger) : Prop where
  each : ∀ (cid : String) (ch : Challenge), led.challenges[cid]? = some ch → Open chain led cid ch
  one : ∀ (cid : String) (ch : Challenge) (cid' : String) (ch' : Challenge), led.challenges[cid]? = some ch → led.challenges[cid']? = some ch' →
    ch.data_id = ch'.data_id → cid = cid'

variable {chain : List Block} {led led' : TokenLedger} {cid : String} {ch : Challenge}

omit [Crypto] in
theorem map_of_bare {α : Type} {f : RegistryEntry → α} (hf : ∀ e, f (bare e) = f e) {o o' : Option RegistryEntry}
    (h : o'.map bare = o.map bare) : o'.map f = o.map f := by
  have hthrough (o : Option RegistryEntry) : o.map f = (o.map bare).map f := by
    cases o with
    | none => rfl
    | some e => exact congrArg some (hf e).symm
  rw [hthrough o', hthrough o, h]

theorem Open.of_entry (h : Open chain led cid ch)
    (hr : led'.registry[ch.data_id]?.map bare = led.registry[ch.data_id]?.map bare) : Open chain led' cid ch := by
  have hstatus := map_of_bare (f := (·.status)) (fun _ => rfl) hr
  have howner := map_of_bare (f := (·.owner)) (fun _ => rfl) hr
  exact ⟨hstatus.trans h.active, h.votes_for, h.votes_against, h.disjoint, h.challenger,
    fun v hv => howner ▸ h.owner v hv, h.jurors⟩

theorem Open.extend (h : Open chain led cid ch) (b : Block) : Open (chain ++ [b]) led cid ch :=
  { h with jurors := fun v hv => (h.jurors v hv).extend b }

/-! ## The sweep -/

/-- A challenge that is left was there before, and its entry was not touched. -/
theorem Market.swept_spec (h : Market chain led) {height : UInt64}
    (hget : (led.resolve_expired_challenges height).challenges[cid]? = some ch) :
    led.challenges[cid]? = some ch ∧
      (led.resolve_expired_challenges height).registry[ch.data_id]? = led.registry[ch.data_id]? := by
  unfold resolve_expired_challenges at hget ⊢
  rw [sweep_challenges] at hget
  split at hget
  · cases hget
  rename_i hleft
  refine ⟨hget, ?_⟩
  rw [sweep_registry, if_neg]
  intro hend
  obtain ⟨c, hc, hcond⟩ := List.any_eq_true.mp hend
  simp only [Bool.and_eq_true, decide_eq_true_eq] at hcond
  obtain ⟨⟨hid, -⟩, hexp⟩ := hcond
  have hcid := h.one c.1 c.2 cid ch (Std.ExtTreeMap.mem_toList_iff_getElem?_eq_some.mp hc) hget hid
  exact hleft (List.any_eq_true.mpr ⟨c, hc, by simp [hcid, hexp]⟩)

theorem Market.sweep (h : Market chain led) {mid : TokenLedger} {b : Block}
    (hc : mid.challenges = (led.resolve_expired_challenges b.header.height).challenges)
    (hr : SameBare (led.resolve_expired_challenges b.header.height).registry mid.registry) :
    Market (chain ++ [b]) mid := by
  refine ⟨fun cid ch hget => ?_, fun cid ch cid' ch' hget hget' => ?_⟩
  · rw [hc] at hget
    obtain ⟨hold, hentry⟩ := h.swept_spec hget
    refine ((h.each cid ch hold).of_entry ?_).extend b
    rw [hr, hentry]
  · rw [hc] at hget hget'
    exact h.one cid ch cid' ch' (h.swept_spec hget).1 (h.swept_spec hget').1

/-! ## Account transactions -/

theorem Open.vote (h : Open chain led cid ch) {v : String} (support : Bool) (hf : v ∉ ch.votes_for)
    (ha : v ∉ ch.votes_against) (hc : ch.challenger ≠ v) (ho : led.registry[ch.data_id]?.map (·.owner) ≠ some v)
    (hj : Voted chain cid v) : Open chain led cid (ch.vote v support) := by
  have hch := h.challenger
  rw [List.mem_append, not_or] at hch
  have hall {P : String → Prop} (hold : ∀ w ∈ ch.votes_for ++ ch.votes_against, P w) (hv : P v) (s : Bool) :
      ∀ w ∈ (ch.vote v s).votes_for ++ (ch.vote v s).votes_against, P w := by
    intro w hw
    have hmem : w ∈ ch.votes_for ++ ch.votes_against ∨ w = v := by
      unfold Challenge.vote at hw
      split at hw <;> simp only [List.mem_append, mem_add_vote] at hw ⊢ <;> tauto
    rcases hmem with hw | rfl
    · exact hold w hw
    · exact hv
  have howner := hall (P := fun w => led.registry[ch.data_id]?.map (·.owner) ≠ some w) h.owner ho support
  have hvoted := hall (P := Voted chain cid) h.jurors hj support
  have hnot := hall (P := fun w => ch.challenger ≠ w)
    (fun w hw he => h.challenger (he ▸ hw)) hc support
  unfold Challenge.vote at howner hvoted hnot ⊢
  cases support with
  | true =>
    refine ⟨h.active, h.votes_for.add hf, h.votes_against, fun w hw hw' => ?_, fun hmem => hnot _ hmem rfl, howner, hvoted⟩
    rcases mem_add_vote.mp hw with hw | rfl
    · exact h.disjoint w hw hw'
    · exact ha hw'
  | false =>
    refine ⟨h.active, h.votes_for, h.votes_against.add ha, fun w hw hw' => ?_, fun hmem => hnot _ hmem rfl, howner, hvoted⟩
    rcases mem_add_vote.mp hw' with hw' | rfl
    · exact h.disjoint w hw hw'
    · exact hf hw

/-- One applied transaction of the last block keeps the market. -/
theorem Market.apply {b : Block} {tx : AccountTx} (h : Market (chain ++ [b]) led) (hmem : tx ∈ account_txs b)
    (ha : apply_account_tx b.header.height (jurors_of chain) led tx = .ok led') : Market (chain ++ [b]) led' := by
  obtain ⟨-, -, -, heff⟩ := apply_account_tx_cases ha
  have hsame (hr : led'.registry = led.registry) (hc : led'.challenges = led.challenges) : Market (chain ++ [b]) led' := by
    refine ⟨fun cid ch hget => ?_, ?_⟩
    · rw [hc] at hget
      exact (h.each cid ch hget).of_entry (by rw [hr])
    · rw [hc]
      exact h.one
  cases heff with
  | transfer hr hc => exact hsame hr hc
  | receipt hr hc => exact hsame hr hc
  | @submit t hfresh _ hr hc =>
    refine ⟨fun cid ch hget => ?_, ?_⟩
    · rw [hc] at hget
      have hopen := h.each cid ch hget
      refine hopen.of_entry ?_
      rw [hr, SumMap.get_insert, if_neg]
      intro he
      -- the entry of an open challenge is in the registry, the new one was not
      refine hfresh (Std.ExtTreeMap.mem_iff_isSome_getElem?.mpr ?_)
      have hactive := hopen.active
      rw [he]
      cases hx : led.registry[ch.data_id]? with
      | none =>
        rw [hx] at hactive
        cases hactive
      | some e => rfl
    · rw [hc]
      exact h.one
  | @challenge t hactive hnone hr hc =>
    refine ⟨fun cid ch hget => ?_, fun cid ch cid' ch' hget hget' hid => ?_⟩
    · rw [hc, SumMap.get_insert] at hget
      split at hget
      · obtain rfl := Option.some.inj hget
        refine ⟨by rw [hr]; exact hactive, ⟨.nil, List.nodup_nil⟩, ⟨.nil, List.nodup_nil⟩, ?_, ?_, ?_, ?_⟩ <;>
          simp [challenge_of]
      · exact (h.each cid ch hget).of_entry (by rw [hr])
    · rw [hc, SumMap.get_insert] at hget hget'
      split at hget <;> split at hget'
      · rename_i hk hk'
        exact hk.symm.trans hk'
      · obtain rfl := Option.some.inj hget
        exact absurd hid.symm (hnone cid' ch' hget')
      · obtain rfl := Option.some.inj hget'
        exact absurd hid (hnone cid ch hget)
      · exact h.one cid ch cid' ch' hget hget' hid
  | @vote t ch₀ hjuror hget₀ hf hag hch howner hr hc =>
    have hid (v : String) (s : Bool) : (ch₀.vote v s).data_id = ch₀.data_id := by
      unfold Challenge.vote
      split <;> rfl
    refine ⟨fun cid ch hget => ?_, fun cid ch cid' ch' hget hget' he => ?_⟩
    · rw [hc, SumMap.get_insert] at hget
      split at hget
      · rename_i hk
        subst hk
        obtain rfl := Option.some.inj hget
        have hvoted : Voted (chain ++ [b]) t.challenge_id (address t.voter_pub) :=
          ⟨chain, b, [], t, rfl, hmem, rfl, rfl, mem_jurors_of.mp hjuror⟩
        exact ((h.each _ ch₀ hget₀).vote t.support hf hag hch howner hvoted).of_entry (by rw [hr])
      · exact (h.each cid ch hget).of_entry (by rw [hr])
    · rw [hc, SumMap.get_insert] at hget hget'
      split at hget <;> split at hget'
      · rename_i hk hk'
        exact hk.symm.trans hk'
      · rename_i hk _
        obtain rfl := Option.some.inj hget
        rw [hid] at he
        exact hk.symm.trans (h.one _ ch₀ cid' ch' hget₀ hget' he)
      · rename_i _ hk
        obtain rfl := Option.some.inj hget'
        rw [hid] at he
        exact (h.one cid ch _ ch₀ hget hget₀ he).trans hk
      · exact h.one cid ch cid' ch' hget hget' he

/-- The market is in order after every chain of accepted blocks. -/
theorem Booked.market {dc : Option String} (h : Booked dc chain led) : Market chain led := by
  induction h with
  | genesis =>
    have hnone : (genesis_ledger dc).challenges = ∅ := by cases dc <;> rfl
    refine ⟨fun cid ch hget => ?_, fun cid ch cid' ch' hget => ?_⟩ <;> simp [hnone] at hget
  | @block chain led led' b _ hstep ih =>
    obtain ⟨mid, -, hc, hr, hfold⟩ := token_transition_cases hstep
    exact foldlM_inv (Market (chain ++ [b])) _ _ (fun s s' tx htx h ha => h.apply htx ha) mid led' (ih.sweep hc hr) hfold

end Sestrian
