import SnapshotDiff.AuditEntry
import SnapshotDiff.Engine

/-!
# Reports

What the commands print.

## Main definitions

* `CommandLine.report` — a change record in lines.
* `CommandLine.entryReport` — an audit entry in lines.
* `CommandLine.familiesReport`, `CommandLine.familiesDocument` — the families in use.
-/

namespace SnapshotDiff

namespace CommandLine

/-- The sign in front of a change. -/
def marker : ChangeKind → String
  | .added => "+"
  | .removed => "-"
  | .modified => "~"
  | .nothing => " "

/-- A value, or `null` if it is absent. -/
def shown : Option Json → String
  | some v => v.text
  | none => "null"

/-- The values of a change: both of a modification, and else the one that matters. -/
def shownValues (kind : ChangeKind) (old new : Option Json) : String :=
  match kind with
  | .modified => shown old ++ " -> " ++ shown new
  | .removed => shown old
  | _ => shown new

/-- The line of a field change. -/
def fieldLine (c : FieldChange) : String :=
  "  " ++ marker c.kind ++ " " ++ c.path ++ ": " ++ shownValues c.kind c.old c.new ++ "\n"

/-- The line of an item change. -/
def itemLine (c : ItemChange) : String :=
  "    " ++ marker c.kind ++ " " ++ shownValues c.kind c.old c.new ++ "\n"

/-- The lines of a collection. -/
def collectionLines (c : CollectionChange) : String :=
  "  " ++ c.name ++ "\n" ++ String.join (c.items.map itemLine)

/-- The last line: how many changes of each kind there are. -/
def summaryLine (r : ChangeRecord) : String :=
  toString (r.count .added) ++ " added, " ++ toString (r.count .removed) ++ " removed, "
    ++ toString (r.count .modified) ++ " modified\n"

/-- A change record in lines. -/
def report (r : ChangeRecord) : String :=
  (if r.fields.isEmpty then "" else "Field changes:\n" ++ String.join (r.fields.map fieldLine))
    ++ (if r.collections.isEmpty then ""
      else "Collection changes:\n" ++ String.join (r.collections.map collectionLines))
    ++ summaryLine r

/-- A change record in lines, or that there is none. -/
def reportOf : Option ChangeRecord → String
  | some r => report r
  | none => "No changes.\n"

/-- An audit entry in lines. -/
def entryReport (e : AuditEntry) : String :=
  e.action.name ++ " " ++ e.family.name ++ " " ++ e.entity ++ " (tenant " ++ e.tenant ++ ")\n"
    ++ "  Event: " ++ e.id.text ++ "\n  Date: " ++ e.date.textIn "+00:00" ++ "\n"
    ++ (match e.user with
      | some u => "  User: " ++ u ++ "\n"
      | none => "")
    ++ reportOf e.diff

/-- The rules in use, in the order of their families. -/
def rulesInUse (e : Engine) : List Rules := e.families.filterMap e.rules?

/-- The line of a family. -/
def familyLine (rules : Rules) : String :=
  Text.padded 16 rules.family.name ++ " " ++ Text.padded 12 rules.shape.typeName ++ " "
    ++ (if rules.defaultObjects.isEmpty then "-" else Text.joined ", " rules.defaultObjects) ++ "\n"

/-- The families in use in lines. -/
def familiesReport (e : Engine) : String :=
  if (rulesInUse e).isEmpty then "No families registered.\n"
  else String.join ((rulesInUse e).map familyLine)

/-- The families in use as a document. -/
def familiesDocument (e : Engine) : Document :=
  .array ((rulesInUse e).map fun rules =>
    .ofMembers [("defaultObjects", .array (rules.defaultObjects.map .ofString)),
      ("family", .ofString rules.family.name), ("shape", .ofString rules.shape.typeName)])

end CommandLine

end SnapshotDiff
