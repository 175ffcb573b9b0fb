import SnapshotDiff.BuiltIn.Markers
import SnapshotDiff.Rules

/-!
# Users

The rules for user records.

## Main definitions

* `Users.rules`.
-/

namespace SnapshotDiff

namespace Users

open FieldShape

/-- A postal address. -/
def address : Shape where
  typeName := "Address"
  fields :=
    strings ["id", "countryId", "addressLine1", "addressLine2", "city", "region", "postalCode",
        "addressTypeId"]
      ++ [field "primaryAddress" .boolean]

/-- Addresses are told apart by their `id`. -/
def shape : Shape where
  typeName := "User"
  fields :=
    strings ["id", "username", "externalSystemId", "barcode"]
      ++ [field "active" .boolean]
      ++ strings ["type", "patronGroup"]
      ++ [field "enrollmentDate" .dateTime,
        field "expirationDate" .dateTime,
        nested "personal"
          ⟨"Personal",
            strings ["lastName", "firstName", "middleName", "preferredFirstName", "email",
                "phone", "mobilePhone"]
              ++ [field "dateOfBirth" .dateTime]
              ++ strings ["preferredContactTypeId", "profilePictureLink"]
              ++ [identified "addresses" address "id"]⟩,
        stringList "preferredEmailCommunication",
        stringList "departments",
        ("customFields", free),
        nested "metadata"
          ⟨"Metadata", [field "createdDate" .dateTime, field "updatedDate" .dateTime]
            ++ strings ["createdByUserId", "updatedByUserId"]⟩]

/-- The timestamps that every write changes. -/
def bookkeeping : String := "metadata"

/-- Personal data are always reported leaf by leaf.  Bookkeeping is read, and has to fit its
declaration, but is never reported. -/
def rules : Rules where
  family := .user
  shape := shape
  defaultObjects := ["personal"]
  reportable p := !Path.within p bookkeeping
  foreign := Family.user.marksOther

end Users

end SnapshotDiff
