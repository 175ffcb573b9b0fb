import SnapshotDiff.Family

/-!
# Markers

The members by which a snapshot can be told to be of a family.

## Main definitions

* `Family.markers` — the members that only the snapshots of a family have.
* `Family.marksOther` — a member belongs to another family.
-/

namespace SnapshotDiff

namespace Family

/-- The members that only snapshots of the family have; both families of MARC records share
theirs. -/
def markers : Family → List String
  | item => ["holdingsRecordId", "materialTypeId", "permanentLoanTypeId"]
  | holdings => ["instanceId", "holdingsTypeId", "holdingsStatements"]
  | inventoryInstance => ["title", "instanceTypeId", "modeOfIssuanceId"]
  | user => ["username", "patronGroup", "personal"]
  | marcBib => ["leader", "parsedRecord"]
  | marcAuthority => ["leader", "parsedRecord"]

/-- The member marks some family and not this one. -/
def marksOther (f : Family) (key : String) : Bool :=
  !f.markers.contains key && all.any fun g => g.markers.contains key

end Family

end SnapshotDiff
