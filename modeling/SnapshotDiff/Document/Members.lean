import SnapshotDiff.Json.Text

/-!
# Documents with known members

Stored records are JSON objects whose members are known by name.  Members that are not known
are passed over without being read as values, a known member may stand once only, and an array
stands for the object whose members are the array's items in turn.

## Main definitions

* `Document.ofMembers` — the object with given members.
* `Document.members?` — the known members of an object.
* `Document.text?`, `Document.tag?`, `Document.optional`, `Document.list?` — the readings of a
  member.

All readings take the number of levels of arrays and objects that there is still room for.
-/

namespace SnapshotDiff

namespace Document

/-- A string. -/
def ofString (s : String) : Document := string (Json.lexeme s)

/-- The object with the given members in the given order. -/
def ofMembers (ms : List (String × Document)) : Document :=
  object (ms.map fun m => (Json.lexeme m.1, m.2))

/-- A value that may be absent, which is written `null`. -/
def ofOptional {α : Type} (write : α → Document) : Option α → Document
  | none => null
  | some a => write a

/-- Puts a member into the places of the known names; `none` if its place is taken. -/
def place? (name : String) (d : Document) :
    List (String × Option Document) → Option (List (String × Option Document))
  | [] => some []
  | (n, found) :: rest =>
    if n = name then (if found.isSome then none else some ((n, some d) :: rest))
    else (place? name d rest).map ((n, found) :: ·)

/-- Puts the members into the places of the known names. -/
def placeAll? (places : List (String × Option Document)) :
    List (List Char × Document) → Option (List (String × Option Document))
  | [] => some places
  | (k, d) :: ms => do placeAll? (← place? (← decoded? k) d places) ms

/-- The members with the given names, in that order. -/
def members? (room : Nat) (names : List String) (d : Document) : Option (List (Option Document)) :=
  if room = 0 then none
  else match d with
    | object ms => (placeAll? (names.map (·, none)) ms).map (·.map Prod.snd)
    | array ds =>
      if ds.length ≤ names.length then
        some (ds.map some ++ List.replicate (names.length - ds.length) none)
      else none
    | _ => none

/-- The text of a string. -/
def text? : Document → Option String
  | string lexeme => decoded? lexeme
  | _ => none

/-- The text of a name out of a fixed choice: a string, or an object whose one member has that
name and is `null`. -/
def tag? (room : Nat) : Document → Option String
  | string lexeme => decoded? lexeme
  | object [(k, null)] => if room = 0 then none else decoded? k
  | _ => none

/-- A member that may be missing or `null`, either of which is absent. -/
def optional {α : Type} (read? : Document → Option α) : Option Document → Option (Option α)
  | none => some none
  | some null => some none
  | some d => (read? d).map some

/-- A list that may be missing, which is the empty list; `null` is no list. -/
def list? {α : Type} (room : Nat) (read? : Nat → Document → Option α) :
    Option Document → Option (List α)
  | none => some []
  | some (array ds) => if room = 0 then none else ds.mapM (read? (room - 1))
  | some _ => none

end Document

end SnapshotDiff
