import Sestrian.Code.Bridge
import Sestrian.Tree.Aggregate

/-!
# Whether the trainer's copy is the head's state

The messages on their way tell a story: each takes a copy of one head to a copy of the next. As
long as no difference is missing, a trainer that has a state has the state of some point of the
story, and every request stands where the copy is right.
-/

namespace Sestrian.bridge

open Patch Aggregate

variable {layout_n : List UInt64 → Option Nat}

/-! ## Sparse addition -/

theorem sparse_dense_add {w d : List Int64} {coords : List (UInt32 × Int64)} (hd : Distinct place coords)
    (h : sparse_dense w.length coords = some d) : List.zipWith (· + ·) w d = apply_redo w coords := by
  unfold sparse_dense at h
  split at h
  · obtain rfl := Option.some.inj h
    apply List.ext_getElem?
    intro j
    have hset : (coords.foldl (fun out c => out.set c.1.toNat c.2) (List.replicate w.length (0 : Int64))) =
        setAll place (·.2) (List.replicate w.length 0) coords := rfl
    rw [getElem?_apply_redo w coords hd, hset, setAll_eq_modifyAll, List.getElem?_zipWith, getElem?_modifyAll hd,
      List.getElem?_replicate]
    unfold value_at
    by_cases hj : j < w.length
    · rw [List.getElem?_eq_getElem hj]
      cases hit place coords j <;> simp [hj]
    · rw [List.getElem?_eq_none (by omega)]
      rfl
  · cases h

/-! ## The story of the messages -/

/-- The trainer's model has a chain layout. -/
def HasLayout (layout_n : List UInt64 → Option Nat) : Prop := ∀ epl, (layout_n epl).isSome

/-- A height, and the state of a copy at it. -/
structure Copy where
  height : UInt64
  state : List Int64

def head_copy (t : BlockTree) : Copy := ⟨head_height t, t.head_state⟩

/-- Messages that take a copy `c` to a copy of `cur`. A request is for the height of the copy it meets,
and that copy is right if it has the height of `cur`. A page is sent to a model with a layout only. -/
inductive Story (layout_n : List UInt64 → Option Nat) (cur : Copy) : Copy → List ToBridge → Prop where
  | done : Story layout_n cur cur []
  | state {c : Copy} {q : List ToBridge} (height : UInt64) (state : List Int64) (epl : List UInt64) :
      Story layout_n cur ⟨height, state⟩ q → Story layout_n cur c (.State height state epl :: q)
  | advance {c : Copy} {q : List ToBridge} (height : UInt64) {coords : List (UInt32 × Int64)} : Distinct place coords →
      Story layout_n cur ⟨height, apply_redo c.state coords⟩ q →
      Story layout_n cur c (.Advance height c.state.length coords :: q)
  | grow {c : Copy} {q : List ToBridge} (height : UInt64) (new_dim : Nat) (layer : Int) (init : List Int64) :
      HasLayout layout_n → Story layout_n cur ⟨height, c.state ++ init⟩ q →
      Story layout_n cur c (.Grow height new_dim layer init :: q)
  | request {c : Copy} {q : List ToBridge} {m : ToBridge} : m = .Train c.height ∨ m = .Eval c.height →
      (c.height = cur.height → c.state = cur.state) → Story layout_n cur c q → Story layout_n cur c (m :: q)
  | generate {c : Copy} {q : List ToBridge} : Story layout_n cur c q → Story layout_n cur c (.Generate :: q)

namespace Story

variable {cur cur' c : Copy} {q q' : List ToBridge}

/-- The story goes on. Requests that were right stay right if the head stays where it is, or moves to a height
that no request on its way is for. -/
theorem append (h : Story layout_n cur c q)
    (hcur : cur' = cur ∨ .Train cur'.height ∉ q ∧ .Eval cur'.height ∉ q) (h' : Story layout_n cur' cur q') :
    Story layout_n cur' c (q ++ q') := by
  have hrest {m : ToBridge} {q : List ToBridge}
      (hcur : cur' = cur ∨ .Train cur'.height ∉ m :: q ∧ .Eval cur'.height ∉ m :: q) :
      cur' = cur ∨ .Train cur'.height ∉ q ∧ .Eval cur'.height ∉ q :=
    hcur.imp_right fun ⟨h₁, h₂⟩ => ⟨fun hm => h₁ (.tail _ hm), fun hm => h₂ (.tail _ hm)⟩
  induction h with
  | done => exact h'
  | state height state epl _ ih => exact .state height state epl (ih (hrest hcur))
  | advance height hdist _ ih => exact .advance height hdist (ih (hrest hcur))
  | grow height new_dim layer init hl _ ih => exact .grow height new_dim layer init hl (ih (hrest hcur))
  | generate _ ih => exact .generate (ih (hrest hcur))
  | @request c q m hm hgood _ ih =>
    refine .request hm (fun he => ?_) (ih (hrest hcur))
    rcases hcur with rfl | ⟨htrain, heval⟩
    · exact hgood he
    · rw [← he] at htrain heval
      rcases hm with rfl | rfl
      · exact absurd (.head _) htrain
      · exact absurd (.head _) heval

theorem suffix (h : Story layout_n cur c (q ++ q')) : ∃ c', Story layout_n cur c' q' := by
  induction q generalizing c with
  | nil => exact ⟨c, h⟩
  | cons m q ih =>
    cases h with
    | state height state epl h => exact ih h
    | advance height _ h => exact ih h
    | grow height new_dim layer init _ h => exact ih h
    | request _ _ h => exact ih h
    | generate h => exact ih h

theorem tail (h : Story layout_n cur c q) : ∃ c', Story layout_n cur c' q.tail := by
  cases q with
  | nil => exact ⟨c, h⟩
  | cons m q => exact suffix (q := [m]) h

end Story

/-! ## One message -/

/-- The trainer has no state, or the copy. -/
def Holds (tr : Trainer) (c : Copy) : Prop :=
  tr.state = none ∨ (tr.state = some c.state ∧ tr.height = c.height.toNat ∧ tr.model.isSome)

theorem take_state_spec (tr : Trainer) (height : UInt64) (state : List Int64) (epl : List UInt64) :
    (tr.take_state layout_n height state epl).1.state = none ∨
    (tr.take_state layout_n height state epl).1.state = some state ∧
      (tr.take_state layout_n height state epl).1.height = height.toNat ∧
      (tr.take_state layout_n height state epl).1.model.isSome := by
  unfold Trainer.take_state
  dsimp only
  split
  · exact .inl rfl
  · exact .inr ⟨rfl, rfl, rfl⟩

/-- A message moves the trainer along the story. -/
theorem Holds.receive {cur c : Copy} {q : List ToBridge} {m : ToBridge} {tr tr' : Trainer} {ask : Bool}
    (hst : Story layout_n cur c (m :: q)) (ht : Holds tr c) (hr : tr.receive layout_n m = some (tr', ask)) :
    ∃ c', Story layout_n cur c' q ∧ Holds tr' c' := by
  cases hst with
  | state height state epl h =>
    refine ⟨_, h, ?_⟩
    have htr : (tr.take_state layout_n height state epl).1 = tr' := congrArg Prod.fst (Option.some.inj hr)
    rw [← htr]
    exact take_state_spec tr height state epl
  | @advance _ _ height coords hdist h =>
    refine ⟨_, h, ?_⟩
    unfold Trainer.receive Trainer.advance at hr
    rcases ht with hnone | ⟨hstate, hheight, hmodel⟩
    · simp only [hnone] at hr
      split at hr
      all_goals
        obtain rfl := (Prod.mk.inj (Option.some.inj hr)).1
        exact .inl hnone
    · have hm : tr.model.isNone = false := by simpa using hmodel
      simp only [hm, hstate, Bool.false_eq_true, if_false, ne_eq, not_true_eq_false] at hr
      obtain ⟨d, hd, he⟩ := Option.map_eq_some_iff.mp hr
      obtain rfl := (Prod.mk.inj he).1
      exact .inr ⟨congrArg some (sparse_dense_add hdist hd), rfl, hmodel⟩
  | grow height new_dim layer init hl h =>
    refine ⟨_, h, ?_⟩
    unfold Trainer.receive Trainer.grow at hr
    rcases ht with hnone | ⟨hstate, hheight, hmodel⟩
    · simp only [hnone, Option.some.injEq] at hr
      split at hr
      all_goals
        obtain rfl := (Prod.mk.inj hr).1
        exact .inl hnone
    · obtain ⟨epl, hepl⟩ := Option.isSome_iff_exists.mp hmodel
      have hlay : (layout_n epl).isNone = false := by simpa using hl epl
      simp only [hepl, hstate, hlay, Option.isNone_some, Bool.false_eq_true, if_false, Option.some.injEq] at hr
      split at hr
      · obtain rfl := (Prod.mk.inj hr).1
        exact .inl rfl
      · obtain rfl := (Prod.mk.inj hr).1
        exact .inr ⟨rfl, rfl, rfl⟩
  | request hm _ h =>
    refine ⟨c, h, ?_⟩
    rcases hm with rfl | rfl
    all_goals
      obtain rfl := (Prod.mk.inj (Option.some.inj hr)).1
      exact ht
  | generate h =>
    obtain rfl := (Prod.mk.inj (Option.some.inj hr)).1
    exact ⟨c, h, ht⟩

/-- A request that runs for the height of the head runs on the head's state. -/
theorem Holds.runs_on {cur c : Copy} {q : List ToBridge} {m : ToBridge} {tr : Trainer} {w : List Int64}
    (hst : Story layout_n cur c (m :: q)) (ht : Holds tr c) (hr : tr.runs_on m = some w)
    (hh : tr.height = cur.height.toNat) : w = cur.state := by
  have hsome (hs : tr.state = some w) : w = c.state ∧ tr.height = c.height.toNat := by
    rcases ht with hnone | ⟨hstate, hheight, -⟩
    · rw [hs] at hnone
      cases hnone
    · exact ⟨Option.some.inj (hs.symm.trans hstate), hheight⟩
  cases hst with
  | state height state epl h => cases hr
  | advance height _ h => cases hr
  | grow height new_dim layer init _ h => cases hr
  | generate h => cases hr
  | request hm hgood h =>
    have hstate : tr.state = some w := by
      rcases hm with rfl | rfl
      all_goals
        dsimp only [Trainer.runs_on] at hr
        split at hr
        · exact hr
        · cases hr
    obtain ⟨rfl, hc⟩ := hsome hstate
    apply hgood
    apply UInt64.toNat_inj.mp
    exact_mod_cast hc.symm.trans hh

end Sestrian.bridge
