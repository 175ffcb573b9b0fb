import SnapshotDiff.BuiltIn.Markers
import SnapshotDiff.Rules

/-!
# Inventory

The rules for items, holdings records and instances.

## Main definitions

* `Inventory.itemRules`, `Inventory.holdingsRules`, `Inventory.instanceRules`.
-/

namespace SnapshotDiff

namespace Inventory

open FieldShape

/-! ### Objects of several families -/

/-- A link to an electronic resource. -/
def electronicAccess : Shape where
  typeName := "ElectronicAccess"
  fields := strings ["uri", "linkText", "materialsSpecification", "publicNote", "relationshipId"]

/-- The tags that staff have given. -/
def tags : Shape where
  typeName := "Tags"
  fields := [stringList "tagList"]

/-- A note whose type is in the field `typeField`. -/
def note (typeName typeField : String) : Shape where
  typeName := typeName
  fields := strings [typeField, "note"] ++ [field "staffOnly" .boolean]

/-! ### Items -/

/-- Circulation notes have an `id` by which they are told apart; other notes have none. -/
def item : Shape where
  typeName := "Item"
  fields :=
    strings ["id", "hrid", "holdingsRecordId", "barcode", "accessionNumber", "itemIdentifier",
        "copyNumber", "volume", "enumeration", "chronology", "numberOfPieces",
        "descriptionOfPieces", "numberOfMissingPieces", "missingPieces", "itemDamagedStatusId",
        "itemLevelCallNumber", "itemLevelCallNumberPrefix", "itemLevelCallNumberSuffix",
        "itemLevelCallNumberTypeId", "materialTypeId", "permanentLoanTypeId",
        "temporaryLoanTypeId", "permanentLocationId", "temporaryLocationId",
        "effectiveLocationId", "inTransitDestinationServicePointId", "effectiveShelvingOrder",
        "purchaseOrderLineIdentifier"]
      ++ [field "missingPiecesDate" .dateTime,
        field "itemDamagedStatusDate" .dateTime,
        field "discoverySuppress" .boolean,
        nested "status" ⟨"ItemStatus", [field "name" .string, field "date" .dateTime]⟩,
        nested "effectiveCallNumberComponents"
          ⟨"CallNumberComponents", strings ["callNumber", "prefix", "suffix", "typeId"]⟩,
        nested "lastCheckIn"
          ⟨"LastCheckIn",
            field "dateTime" .dateTime :: strings ["servicePointId", "staffMemberId"]⟩,
        stringList "yearCaption",
        stringList "formerIds",
        stringList "statisticalCodeIds",
        stringList "administrativeNotes",
        objectList "notes" (note "ItemNote" "itemNoteTypeId"),
        identified "circulationNotes"
          ⟨"CirculationNote", strings ["id", "noteType", "note"]
            ++ [field "staffOnly" .boolean, field "date" .dateTime]⟩ "id",
        objectList "electronicAccess" electronicAccess,
        nested "tags" tags]

/-- Status, call number and tags of an item are always reported leaf by leaf. -/
def itemRules : Rules where
  family := .item
  shape := item
  defaultObjects := ["status", "effectiveCallNumberComponents", "tags"]
  foreign := Family.item.marksOther

/-! ### Holdings records -/

/-- A statement of holdings. -/
def statement (typeName : String) : Shape where
  typeName := typeName
  fields := strings ["statement", "note", "staffNote"]

/-- Nothing in a holdings record has an identity. -/
def holdings : Shape where
  typeName := "HoldingsRecord"
  fields :=
    strings ["id", "hrid", "holdingsTypeId", "instanceId", "permanentLocationId",
        "temporaryLocationId", "effectiveLocationId", "callNumberTypeId", "callNumberPrefix",
        "callNumber", "callNumberSuffix", "shelvingTitle", "acquisitionFormat",
        "acquisitionMethod", "receiptStatus", "illPolicyId", "retentionPolicy",
        "digitizationPolicy", "copyNumber", "numberOfItems", "sourceId"]
      ++ [field "discoverySuppress" .boolean,
        stringList "formerIds",
        stringList "statisticalCodeIds",
        stringList "administrativeNotes",
        objectList "holdingsStatements" (statement "HoldingsStatement"),
        objectList "holdingsStatementsForSupplements" (statement "SupplementStatement"),
        objectList "holdingsStatementsForIndexes" (statement "IndexStatement"),
        objectList "notes" (note "HoldingsNote" "holdingsNoteTypeId"),
        objectList "electronicAccess" electronicAccess,
        nested "receivingHistory"
          ⟨"ReceivingHistory", [field "displayType" .string,
            objectList "entries"
              ⟨"ReceivingHistoryEntry",
                field "publicDisplay" .boolean :: strings ["enumeration", "chronology"]⟩]⟩,
        nested "tags" tags]

/-- Receiving history and tags of a holdings record are always reported leaf by leaf. -/
def holdingsRules : Rules where
  family := .holdings
  shape := holdings
  defaultObjects := ["receivingHistory", "tags"]
  foreign := Family.holdings.marksOther

/-! ### Instances -/

/-- Subjects are told apart by their heading: a subject whose type or source changes is one
modified member. -/
def inventoryInstance : Shape where
  typeName := "Instance"
  fields :=
    strings ["id", "hrid", "source", "title", "indexTitle", "instanceTypeId",
        "modeOfIssuanceId", "catalogedDate", "statusId"]
      ++ [field "statusUpdatedDate" .dateTime,
        field "previouslyHeld" .boolean,
        field "staffSuppress" .boolean,
        field "discoverySuppress" .boolean,
        nested "dates" ⟨"Dates", strings ["dateTypeId", "date1", "date2"]⟩,
        nested "publicationPeriod"
          ⟨"PublicationPeriod", [field "start" .integer, field "end" .integer]⟩,
        stringList "languages",
        stringList "editions",
        stringList "physicalDescriptions",
        stringList "instanceFormatIds",
        stringList "natureOfContentTermIds",
        stringList "statisticalCodeIds",
        stringList "publicationFrequency",
        stringList "publicationRange",
        stringList "administrativeNotes",
        objectList "identifiers" ⟨"Identifier", strings ["identifierTypeId", "value"]⟩,
        objectList "alternativeTitles"
          ⟨"AlternativeTitle",
            strings ["alternativeTitleTypeId", "alternativeTitle", "authorityId"]⟩,
        objectList "contributors"
          ⟨"Contributor",
            strings ["name", "contributorTypeId", "contributorTypeText",
                "contributorNameTypeId", "authorityId"] ++ [field "primary" .boolean]⟩,
        identified "subjects"
          ⟨"Subject", strings ["value", "authorityId", "sourceId", "typeId"]⟩ "value",
        objectList "series" ⟨"Series", strings ["value", "authorityId"]⟩,
        objectList "classifications"
          ⟨"Classification", strings ["classificationNumber", "classificationTypeId"]⟩,
        objectList "publication"
          ⟨"Publication", strings ["publisher", "place", "dateOfPublication", "role"]⟩,
        objectList "electronicAccess" electronicAccess,
        objectList "notes" (note "InstanceNote" "instanceNoteTypeId"),
        nested "tags" tags]

/-- Dates, publication period and tags of an instance are always reported leaf by leaf. -/
def instanceRules : Rules where
  family := .inventoryInstance
  shape := inventoryInstance
  defaultObjects := ["dates", "publicationPeriod", "tags"]
  foreign := Family.inventoryInstance.marksOther

end Inventory

end SnapshotDiff
