import Sestrian.Code.BlockTree

/-!
# A node that holds some of the pages (`blocktree.rs`, `new_paged`)
-/

namespace Sestrian

variable [Crypto]

/-- One round of the loop that slices out the held pages. -/
def hold_page (genesis_full : List Int64) (held : List Nat) (acc : List Int64 × List (Option Nat))
    (page : Page × Nat) : List Int64 × List (Option Nat) :=
  if page.2 ∈ held then
    (acc.1 ++ slice genesis_full page.1.start page.1.stop, acc.2 ++ [some acc.1.length])
  else (acc.1, acc.2 ++ [none])

def hold_pages (genesis_full : List Int64) (held : List Nat) (pages : List Page) : List Int64 × List (Option Nat) :=
  pages.zipIdx.foldl (hold_page genesis_full held) ([], [])

/-- The backbone page is always held. -/
def BlockTree.new_paged (genesis_full : List Int64) (held_pages : List Nat) (data_contributor : Option String)
    (params : GenesisParams) : BlockTree :=
  let held := 0 :: held_pages
  let (canon, page_base) := hold_pages genesis_full held (ModelState.genesis params.spec).pages
  { BlockTree.new genesis_full data_contributor params with
    canon, genesis_pin := none, held := some held, page_base }

end Sestrian
