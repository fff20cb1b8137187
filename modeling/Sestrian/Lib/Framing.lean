import Mathlib

/-!
# Lists that can be taken apart again

Two ways to write a list of parts as one: each part after a mark of its length, and the parts with
a separator between them.
-/

namespace Framing

variable {α : Type*}

/-! ## A mark before each part -/

/-- Each part after the mark of its length. -/
def frame (mark : Nat → List α) (parts : List (List α)) : List α := parts.flatMap fun p => mark p.length ++ p

variable {mark : Nat → List α} {width bound : Nat}

end Framing
