import SnapshotDiff.Error
import SnapshotDiff.Shape

/-!
# Rules

How the snapshots of a family are read and compared.

## Main definitions

* `Rules` — the shape of a family with the choices that go with it.
* `Rules.ignoring` — the rules with paths that are not reported.
-/

namespace SnapshotDiff

/-- How the snapshots of a family are read and compared. -/
structure Rules where
  family : Family
  shape : Shape
  /-- Paths of nested objects that are taken to be there, empty, where a snapshot has none. -/
  defaultObjects : List String := []
  /-- Whether changes at a path are reported. -/
  reportable : String → Bool := fun _ => true
  /-- Whether a member that the shape does not declare belongs to another family. -/
  foreign : String → Bool := fun _ => false
  /-- Brings a snapshot into the layout that the shape describes, where it may have another. -/
  reshape? : Option (Table Json → Except DiffError (Table Json)) := none

namespace Rules

/-- The snapshot in the layout that the shape describes. -/
def reshaped (rules : Rules) (members : Table Json) : Except DiffError (Table Json) :=
  match rules.reshape? with
  | some f => f members
  | none => .ok members

/-- The rules under which nothing is reported at the given paths and below them. -/
def ignoring (rules : Rules) (paths : List String) : Rules :=
  { rules with
    reportable := fun p => rules.reportable p && !paths.any fun top => Path.within p top }

/-- The error of a snapshot of the family at a path. -/
def mismatch (rules : Rules) (path : String) (cause : Mismatch) : DiffError :=
  .mismatch rules.family path cause

@[simp] theorem ignoring_shape (rules : Rules) (paths : List String) :
    (rules.ignoring paths).shape = rules.shape := rfl

@[simp] theorem ignoring_family (rules : Rules) (paths : List String) :
    (rules.ignoring paths).family = rules.family := rfl

@[simp] theorem ignoring_reportable (rules : Rules) (paths : List String) (p : String) :
    (rules.ignoring paths).reportable p
      = (rules.reportable p && !paths.any fun top => Path.within p top) := rfl

end Rules

end SnapshotDiff
