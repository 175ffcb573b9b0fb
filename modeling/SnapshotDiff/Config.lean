import SnapshotDiff.Error
import SnapshotDiff.Text.Blank

/-!
# Configurations

## Main definitions

* `Config` — the families in use, and the paths that are not reported.
* `Config.ignored` — the paths by family, if the configuration is sound.
-/

namespace SnapshotDiff

/-- Which families are in use, and which paths are not reported. -/
structure Config where
  families : List Family := Family.all
  /-- Under the name of a family, the paths at and below which nothing is reported. -/
  ignoredPaths : Table (List String) := []
  deriving DecidableEq, Repr

namespace Config

/-- The family of a name and its paths, none of which may be blank. -/
def ignoredEntry (name : String) (paths : List String) :
    Except ConfigFault (Family × List String) :=
  match Family.ofName? name with
  | none => .error (.unknownFamily name)
  | some f =>
    match paths.find? Text.isBlankText with
    | some p => .error (.blankPath name p)
    | none => .ok (f, paths)

/-- The ignored paths by family.  Of several faults the first in the order of the names is
reported. -/
def ignored (c : Config) : Except ConfigFault (List (Family × List String)) :=
  c.ignoredPaths.mapM fun e => ignoredEntry e.1 e.2

end Config

end SnapshotDiff
