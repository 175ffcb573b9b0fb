import SnapshotDiff.Change.Stored
import SnapshotDiff.EventId
import SnapshotDiff.Family
import SnapshotDiff.Instant.Parser

/-!
# Audit entries

## Main definitions

* `AuditEntry` — what happened to an entity, and what changed.
* `AuditEntry.text`, `AuditEntry.ofText?` — the stored form.
-/

namespace SnapshotDiff

/-- What happened to an entity. -/
structure AuditEntry where
  id : EventId
  tenant : String
  /-- The identifier of the entity. -/
  entity : String
  family : Family
  action : Action
  /-- Who did it, if that is known. -/
  user : Option String
  date : Instant
  /-- What changed, if anything did. -/
  diff : Option ChangeRecord
  deriving Repr

namespace AuditEntry

/-- The entry as a document. -/
def document (e : AuditEntry) : Document :=
  .ofMembers [("eventId", .ofString e.id.text), ("tenantId", .ofString e.tenant),
    ("entityId", .ofString e.entity), ("family", .ofString e.family.name),
    ("action", .ofString e.action.name), ("userId", .ofOptional .ofString e.user),
    ("eventDate", .ofString e.date.text), ("diff", .ofOptional ChangeRecord.document e.diff)]

/-- The entry that a document holds. -/
def ofDocument? (room : Nat) (d : Document) : Option AuditEntry := do
  match ← d.members? room ["eventId", "tenantId", "entityId", "family", "action", "userId",
      "eventDate", "diff"] with
  | [some id, some tenant, some entity, some family, some action, user, some date, diff] =>
    return { id := ← id.text?.bind EventId.ofText?
             tenant := ← tenant.text?
             entity := ← entity.text?
             family := ← (family.tag? (room - 1)).bind Family.ofName?
             action := ← (action.tag? (room - 1)).bind Action.ofName?
             user := ← Document.optional Document.text? user
             date := ← date.text?.bind Instant.ofStored?
             diff := ← Document.optional (ChangeRecord.ofDocument? (room - 1)) diff }
  | _ => none

/-- The entry as a text. -/
def text (e : AuditEntry) : String := e.document.compact

/-- The entry that a text holds. -/
def ofText? (s : String) : Option AuditEntry :=
  (Document.ofText? s).bind (ofDocument? Document.maxDepth)

end AuditEntry

end SnapshotDiff
