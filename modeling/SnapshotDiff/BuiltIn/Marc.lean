import SnapshotDiff.BuiltIn.Markers
import SnapshotDiff.Rules

/-!
# MARC records

Bibliographic and authority records.  A record comes bare or wrapped in a source record, as the
`content` of its `parsedRecord`, and its fields have the layout of MARC in JSON: an object whose
one key is the tag.  Before a record is read, its fields are made flat:

* `001: "in001"` becomes `tag: "001", value: "in001"`;
* `245: ind1: "1", ind2: "0", subfields: [a: "Title"]` becomes
  `tag: "245", ind1: "1", ind2: "0", subfields: ["$a Title"]`.

Tags repeat, so fields have no identity: an edited field is one that is gone and one that is
new.

## Main definitions

* `Marc.reshape` — a record in the flat layout.
* `Marc.rules` — the rules of a family of MARC records.
-/

namespace SnapshotDiff

namespace Marc

open FieldShape

/-- The family itself if its entities are MARC records, and else that of bibliographic
records. -/
def familyOf (family : Family) : Family := if family.isMarc then family else .marcBib

/-- What the records of a family have as their record type. -/
def recordType : Family → String
  | .marcAuthority => "MARC_AUTHORITY"
  | _ => "MARC_BIB"

/-! ### Faults -/

/-- Why a record cannot be brought into the flat layout. -/
inductive Fault
  | wrongRecordType (expected : String) (found : Json)
  | noContent
  | notAnObject
  | notOneTag
  | badBody
  | badSubfields
  | badSubfield
  deriving Repr

/-- The wording of the fault. -/
def Fault.reason : Fault → String
  | wrongRecordType expected found => "expected `" ++ expected ++ "`, found " ++ found.text
  | noContent => "expected an object"
  | notAnObject => "expected a single-tag object"
  | notOneTag => "expected exactly one tag per field"
  | badBody => "field body must be a string or an object"
  | badSubfields => "subfields must be an array"
  | badSubfield => "subfields must be single-code string entries"

/-! ### Fields -/

/-- A subfield with its code in front. -/
def flatSubfield : Json → Except Fault Json
  | .obj [(code, .str data)] => .ok (.str ("$" ++ code ++ " " ++ data))
  | _ => .error .badSubfield

/-- The subfields of a field, with their codes in front. -/
def flatSubfields : Option Json → Except Fault (List Json)
  | none | some .null => .ok []
  | some (.arr vs) => vs.mapM flatSubfield
  | some _ => .error .badSubfields

/-- The member of a field under a name, if there is one. -/
def kept (data : Table Json) (name : String) : List (String × Json) :=
  ((data.get? name).map (name, ·)).toList

/-- A field with a tag and a body. -/
def flatBody (tag : String) : Json → Except Fault Json
  | .str s => .ok (.obj (Table.ofList [("tag", .str tag), ("value", .str s)]))
  | .obj data => do
    let subfields ← flatSubfields (Table.get? data "subfields")
    return .obj (Table.ofList
      (("tag", .str tag) :: kept data "ind1" ++ kept data "ind2"
        ++ [("subfields", .arr subfields)]))
  | _ => .error .badBody

/-- A field in the flat layout; one that has the key `tag` is in it already. -/
def flatField : Json → Except Fault Json
  | .obj members =>
    if Table.contains members "tag" then .ok (.obj members)
    else match members with
      | [(tag, body)] => flatBody tag body
      | _ => .error .notOneTag
  | _ => .error .notAnObject

/-- The fields from an index on.  Those that are `null` are left out and still counted. -/
def flatFields (family : Family) : (index : Nat) → List Json → Except DiffError (List Json)
  | _, [] => .ok []
  | i, .null :: vs => flatFields family (i + 1) vs
  | i, v :: vs =>
    match flatField v with
    | .error fault => .error (.mismatch family (Path.item "fields" i) (.stated fault.reason))
    | .ok w => (flatFields family (i + 1) vs).map (w :: ·)

/-! ### Records -/

/-- A record's type, if it has one, is that of its family. -/
def checkRecordType (family : Family) (raw : Table Json) : Except DiffError Unit :=
  match raw.get? "recordType" with
  | none | some .null => .ok ()
  | some v =>
    if v.text? = some (recordType family) then .ok ()
    else .error (.mismatch family "recordType"
      (.stated (Fault.wrongRecordType (recordType family) v).reason))

/-- The record without its wrapping. -/
def content (family : Family) (raw : Table Json) : Except DiffError (Table Json) :=
  match raw.get? "parsedRecord" with
  | none | some .null => .ok raw
  | some parsed =>
    match (parsed.member? "content").bind Json.members? with
    | some members => .ok members
    | none => .error (.mismatch family "parsedRecord.content" (.stated Fault.noContent.reason))

/-- A record in the flat layout.  The record type is that of the wrapping. -/
def reshape (family : Family) (raw : Table Json) : Except DiffError (Table Json) := do
  checkRecordType family raw
  let content ← content family raw
  let typed :=
    match raw.get? "recordType" with
    | some v => (content.erase "fields").insert "recordType" v
    | none => content.erase "fields"
  match content.get? "fields" with
  | some (.arr vs) => return typed.insert "fields" (.arr (← flatFields family 0 vs))
  | some v => return typed.insert "fields" v
  | none => return typed

/-- A record in the flat layout. -/
def shape : Shape where
  typeName := "MarcRecord"
  fields :=
    strings ["recordType", "leader"]
      ++ [objectList "fields"
        ⟨"MarcField", strings ["tag", "ind1", "ind2", "value"] ++ [stringList "subfields"]⟩]

/-- The rules for a family of MARC records. -/
def rules (family : Family) : Rules where
  family := familyOf family
  shape := shape
  foreign := (familyOf family).marksOther
  reshape? := some (reshape (familyOf family))

end Marc

end SnapshotDiff
