import SnapshotDiff.Change
import SnapshotDiff.Document.Members

/-!
# Stored changes

Change records as JSON documents, and documents read back as change records.

## Main definitions

* `ChangeRecord.document`, `FieldChange.document`, … — the written form; absent values are
  written `null`.
* `ChangeRecord.ofDocument?`, `FieldChange.ofDocument?`, … — the reading; a value that is
  missing or `null` is absent.
* `ChangeRecord.text`, `ChangeRecord.ofText?` — the same for texts.
-/

namespace SnapshotDiff

/-- The kind of a change as a document. -/
def ChangeKind.document (k : ChangeKind) : Document := .ofString k.name

/-- The kind of a change that a document names. -/
def ChangeKind.ofDocument? (room : Nat) (d : Document) : Option ChangeKind :=
  (d.tag? room).bind ofName?

namespace FieldChange

/-- The change as a document. -/
def document (c : FieldChange) : Document :=
  .ofMembers [("changeType", c.kind.document), ("fieldName", .ofString c.name),
    ("fullPath", .ofString c.path), ("oldValue", .ofOptional Json.document c.old),
    ("newValue", .ofOptional Json.document c.new)]

/-- The change that a document holds. -/
def ofDocument? (room : Nat) (d : Document) : Option FieldChange := do
  match ← d.members? room ["changeType", "fieldName", "fullPath", "oldValue", "newValue"] with
  | [some kind, some name, some path, old, new] =>
    return { kind := ← ChangeKind.ofDocument? (room - 1) kind
             name := ← name.text?
             path := ← path.text?
             old := ← Document.optional (·.valueWithin? (room - 1)) old
             new := ← Document.optional (·.valueWithin? (room - 1)) new }
  | _ => none

end FieldChange

namespace ItemChange

/-- The change as a document. -/
def document (c : ItemChange) : Document :=
  .ofMembers [("changeType", c.kind.document), ("oldValue", .ofOptional Json.document c.old),
    ("newValue", .ofOptional Json.document c.new)]

/-- The change that a document holds. -/
def ofDocument? (room : Nat) (d : Document) : Option ItemChange := do
  match ← d.members? room ["changeType", "oldValue", "newValue"] with
  | [some kind, old, new] =>
    return { kind := ← ChangeKind.ofDocument? (room - 1) kind
             old := ← Document.optional (·.valueWithin? (room - 1)) old
             new := ← Document.optional (·.valueWithin? (room - 1)) new }
  | _ => none

end ItemChange

namespace CollectionChange

/-- The changes of a collection as a document. -/
def document (c : CollectionChange) : Document :=
  .ofMembers [("collectionName", .ofString c.name),
    ("itemChanges", .array (c.items.map ItemChange.document))]

/-- The changes of a collection that a document holds. -/
def ofDocument? (room : Nat) (d : Document) : Option CollectionChange := do
  match ← d.members? room ["collectionName", "itemChanges"] with
  | [some name, items] =>
    return { name := ← name.text?
             items := ← Document.list? (room - 1) ItemChange.ofDocument? items }
  | _ => none

end CollectionChange

namespace ChangeRecord

/-- The record as a document. -/
def document (r : ChangeRecord) : Document :=
  .ofMembers [("fieldChanges", .array (r.fields.map FieldChange.document)),
    ("collectionChanges", .array (r.collections.map CollectionChange.document))]

/-- The record that a document holds; it may be empty. -/
def ofDocument? (room : Nat) (d : Document) : Option ChangeRecord := do
  match ← d.members? room ["fieldChanges", "collectionChanges"] with
  | [fields, collections] =>
    return { fields := ← Document.list? (room - 1) FieldChange.ofDocument? fields
             collections := ← Document.list? (room - 1) CollectionChange.ofDocument? collections }
  | _ => none

/-- The record as a text. -/
def text (r : ChangeRecord) : String := r.document.compact

/-- The record that a text holds. -/
def ofText? (s : String) : Option ChangeRecord :=
  (Document.ofText? s).bind (ofDocument? Document.maxDepth)

end ChangeRecord

end SnapshotDiff
