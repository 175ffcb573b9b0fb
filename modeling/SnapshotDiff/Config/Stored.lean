import SnapshotDiff.Config
import SnapshotDiff.Toml.Parser
import SnapshotDiff.Toml.Quoted

/-!
# Stored configurations

Configurations as TOML texts.  A text has a list `families` of names and a table
`ignored_paths` of lists of paths; either may be missing, and nothing else may be there.

## Main definitions

* `Config.text` — a configuration as a text.
* `Config.ofText` — the configuration of a text, if it is sound.
-/

namespace SnapshotDiff

namespace Config

/-- A text. -/
def textValue? : Toml → Option String
  | .text s => some s
  | _ => none

/-- The value has nothing inside. -/
def isEmptyValue (v : Toml) : Bool :=
  v.items?.any (·.isEmpty) || v.members?.any (·.isEmpty)

/-- A family: its name, or a table whose one key is the name, with nothing under it. -/
def familyValue? : Toml → Option Family
  | .text s => Family.ofName? s
  | .table _ [(name, v)] => if isEmptyValue v then Family.ofName? name else none
  | _ => none

/-- A list of paths. -/
def pathsValue? (v : Toml) : Option (List String) := v.items?.bind (·.mapM textValue?)

/-- The lists of paths under the names of families. -/
def ignoredValue? (v : Toml) : Option (Table (List String)) := do
  let entries ← (← v.members?).mapM fun m => (pathsValue? m.2).map (m.1, ·)
  return Table.ofList entries

/-- The configuration that the members of a document make up. -/
def ofMembers? (ms : Toml.Members) : Option Config := do
  if !ms.all fun m => m.1 = "families" || m.1 = "ignored_paths" then none
  let families ← match ms.lookup "families" with
    | none => some Family.all
    | some v => v.items?.bind (·.mapM familyValue?)
  let ignoredPaths ← match ms.lookup "ignored_paths" with
    | none => some []
    | some v => ignoredValue? v
  return ⟨families, ignoredPaths⟩

/-- The configuration of a text, if its ignored paths are sound. -/
def ofText (s : String) : Except ConfigFault Config :=
  match (Toml.ofText? s).bind ofMembers? with
  | none => .error .malformed
  | some c => c.ignored.map fun _ => c

/-- The configuration as a text. -/
def text (c : Config) : String :=
  "families = " ++ Toml.arrayText (c.families.map Family.name) ++ "\n\n[ignored_paths]\n"
    ++ String.join (c.ignoredPaths.map fun e =>
      Toml.quotedKey e.1 ++ " = " ++ Toml.arrayText e.2 ++ "\n")

end Config

end SnapshotDiff
