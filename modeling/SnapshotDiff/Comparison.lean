import SnapshotDiff.BuiltIn
import SnapshotDiff.Correlation

/-!
# Comparisons

Two snapshots of an entity are read, their differences are found, and these are put together
into the record of the changes.

## Main definitions

* `Rules.diff` — the record of the changes between two snapshots.
-/

namespace SnapshotDiff

namespace Rules

/-- The record of the changes between two entities, if there are any. -/
def diffEntities (rules : Rules) (old new : Entity) : Except DiffError (Option ChangeRecord) :=
  (Finding.between rules old new).map fun fs => (Correlation.ofFindings fs).record?

/-- The record of the changes between two snapshots, if there are any.  A snapshot that is
absent stands for an entity that does not exist yet or no longer. -/
def diff (rules : Rules) (old new : Option Json) : Except DiffError (Option ChangeRecord) := do
  let old ← Entity.ofSnapshot rules old
  let new ← Entity.ofSnapshot rules new
  rules.diffEntities old new

end Rules

end SnapshotDiff
