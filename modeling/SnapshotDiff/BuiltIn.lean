import SnapshotDiff.BuiltIn.Inventory
import SnapshotDiff.BuiltIn.Marc
import SnapshotDiff.BuiltIn.Users

/-!
# Built-in rules

## Main definitions

* `Rules.builtIn` — the rules of every family.
-/

namespace SnapshotDiff

/-- The rules of a family. -/
def Rules.builtIn : Family → Rules
  | .item => Inventory.itemRules
  | .holdings => Inventory.holdingsRules
  | .inventoryInstance => Inventory.instanceRules
  | .user => Users.rules
  | .marcBib => Marc.rules .marcBib
  | .marcAuthority => Marc.rules .marcAuthority

/-- The built-in rules of a family are rules for that family. -/
@[simp] theorem Rules.family_builtIn (f : Family) : (Rules.builtIn f).family = f := by
  cases f <;> rfl

end SnapshotDiff
