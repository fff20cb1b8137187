import Mathlib.Data.List.Count
import Mathlib.Data.Nat.Lattice
import Mathlib.Tactic.Common

/-!
# The largest elements of a list

A list is split at a place when no key before it is above a key from it on. The part from
there on holds as many elements of any upper set as it has room for.
-/

namespace Sestrian.Select

variable {ι β : Type} [LE β]

def SplitAt (key : ι → β) (kth : Nat) (p : List ι) : Prop :=
  ∀ a ∈ p.take kth, ∀ b ∈ p.drop kth, key a ≤ key b

/-- A property that larger keys keep. -/
def Upward (key : ι → β) (p : List ι) (P : ι → Bool) : Prop :=
  ∀ a ∈ p, ∀ b ∈ p, key a ≤ key b → P a → P b

variable {key : ι → β} {kth : Nat} {p : List ι} {P : ι → Bool}

theorem count_top (h : SplitAt key kth p) (hup : Upward key p P) :
    min (p.length - kth) (p.countP P) ≤ (p.drop kth).countP P := by
  by_cases hall : ∀ b ∈ p.drop kth, P b
  · have hfull : (p.drop kth).countP P = p.length - kth := by
      rw [List.countP_eq_length.mpr hall, List.length_drop]
    omega
  · push Not at hall
    obtain ⟨b, hb, hfalse⟩ := hall
    have hbelow : (p.take kth).countP P = 0 := by
      refine List.countP_eq_zero.mpr fun a ha hPa => hfalse ?_
      exact hup a (List.mem_of_mem_take ha) b (List.mem_of_mem_drop hb) (h a ha b hb) hPa
    have hsum : p.countP P = (p.take kth).countP P + (p.drop kth).countP P := by
      rw [← List.countP_append, List.take_append_drop]
    omega

end Sestrian.Select
