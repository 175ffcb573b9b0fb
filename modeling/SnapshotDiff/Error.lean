import SnapshotDiff.Family
import SnapshotDiff.Json.Text

/-!
# Errors

Why a snapshot cannot be compared, and the wording of each cause.

## Main definitions

* `Mismatch` — why a snapshot does not fit the shape of its family.
* `ConfigFault` — what is wrong with a configuration.
* `DiffError` — why there is no result.
* `DiffError.message` — the wording.
-/

namespace SnapshotDiff

/-- What a place in a snapshot has to hold. -/
inductive Expected
  | string
  | integer
  | number
  | boolean
  | dateTime
  | object
  | array
  deriving DecidableEq, Repr

/-- What has to be there, in words. -/
def Expected.phrase : Expected → String
  | string => "a string"
  | integer => "an integer"
  | number => "a number"
  | boolean => "a boolean"
  | dateTime => "a date-time string"
  | object => "an object"
  | array => "an array"

/-- Why a snapshot does not fit the shape of its family. -/
inductive Mismatch
  /-- The value is of the wrong kind. -/
  | unexpected (expected : Expected) (found : Json)
  /-- The text is no date-time. -/
  | notDateTime (text : String)
  /-- The snapshot has members, but none that the shape of this name declares. -/
  | nothingDeclared (typeName : String)
  /-- The member is not declared by the shape of this name and belongs to another family. -/
  | foreignField (typeName : String)
  /-- The entity was read as one of another family. -/
  | otherFamily (family : Family)
  /-- A cause in the words of those who found it. -/
  | stated (reason : String)
  deriving Repr

/-- The wording of the cause. -/
def Mismatch.reason : Mismatch → String
  | unexpected expected found => "expected " ++ expected.phrase ++ ", found " ++ found.kindName
  | notDateTime text => "`" ++ text ++ "` is not a valid date-time"
  | nothingDeclared typeName => "snapshot has none of the fields declared by " ++ typeName
  | foreignField typeName =>
    "field is not part of " ++ typeName ++ " and marks another family"
  | otherFamily family => "entity was normalized as " ++ family.name
  | stated reason => reason

/-- What is wrong with a configuration. -/
inductive ConfigFault
  /-- There is no such file. -/
  | unreadable (file : String)
  /-- The text is not a configuration. -/
  | malformed
  /-- Paths are to be ignored for a family that does not exist. -/
  | unknownFamily (name : String)
  /-- A path to be ignored is blank. -/
  | blankPath (family path : String)
  /-- Paths are to be ignored for a family that is not in use. -/
  | unusedFamily (family : Family)
  /-- A fault in the words of those who found it. -/
  | stated (reason : String)
  deriving DecidableEq, Repr

/-- The wording of the fault. -/
def ConfigFault.reason : ConfigFault → String
  | unreadable file => "cannot read " ++ file
  | malformed => "the text is not a configuration"
  | unknownFamily name => "ignored_paths: " ++ (NameError.unknownFamily name).message
  | blankPath family path => "ignored_paths." ++ family ++ ": blank prefix `" ++ path ++ "`"
  | unusedFamily family =>
    "ignored paths configured for `" ++ family.name ++ "`, which is not in `families`"
  | stated reason => reason

/-- Why there is no result. -/
inductive DiffError
  /-- A snapshot does not fit the shape of its family at a path. -/
  | mapping (family : Family) (path : String) (cause : Mismatch)
  /-- The family is not in use. -/
  | unsupported (family : Family)
  /-- The configuration is at fault. -/
  | config (fault : ConfigFault)
  deriving Repr

namespace DiffError

/-- The mismatch at a path; the root of a snapshot, which has the empty path, is called
`<root>`. -/
def mismatch (family : Family) (path : String) (cause : Mismatch) : DiffError :=
  mapping family (if path = "" then "<root>" else path) cause

/-- The wording of the error. -/
def message : DiffError → String
  | mapping family path cause =>
    "cannot map " ++ family.name ++ " snapshot at `" ++ path ++ "`: " ++ cause.reason
  | unsupported family =>
    "no calculator registered for entity family `" ++ family.name ++ "`"
  | config fault => "configuration error: " ++ fault.reason

/-- The error is about a snapshot. -/
def isMapping : DiffError → Bool
  | mapping .. => true
  | _ => false

/-- Whether the same input may succeed when it is tried again.  It never does. -/
def isRetryable (_ : DiffError) : Bool := false

end DiffError

end SnapshotDiff
