import SnapshotDiff.Json.Text
import SnapshotDiff.Text.Listing

/-!
# Entity graphs

What is left of a snapshot once it has been read against a shape: a tree of declared fields.
Every node has a key, and nodes of one declared kind are held equal if their keys are.

## Main definitions

* `Node` — leaves, objects, collections and free objects.
* `Node.json` — the node as a JSON value.
* `Node.key` — the text that stands for the node in comparisons.  It forgets the order and the
  repetitions of the members of a collection.
* `Node.openObjects` — the walk that creates the objects which are missing on a path.
-/

namespace SnapshotDiff

/-- A node of an entity graph. -/
inductive Node
  /-- A leaf: the value as it was received and the text that stands for it in comparisons. -/
  | leaf (raw : Json) (key : String)
  /-- An object: its present fields as a table. -/
  | object (fields : List (String × Node))
  | collection (members : List Node)
  /-- A free object: its members as they were received. -/
  | free (members : Table Json)
  deriving Repr, Inhabited

namespace Node

/-! ### Parts -/

/-- The value and the key of a leaf. -/
def leaf? : Node → Option (Json × String)
  | leaf raw key => some (raw, key)
  | _ => none

/-- The fields of an object. -/
def object? : Node → Option (Table Node)
  | object fields => some fields
  | _ => none

/-- The members of a collection. -/
def collection? : Node → Option (List Node)
  | collection ms => some ms
  | _ => none

/-- The members of a free object. -/
def free? : Node → Option (Table Json)
  | free ms => some ms
  | _ => none

@[simp] theorem object?_object (fields : Table Node) : (object fields).object? = some fields := rfl

@[simp] theorem collection?_collection (ms : List Node) :
    (collection ms).collection? = some ms := rfl

/-! ### Values -/

mutual

/-- The node as a JSON value. -/
def json : Node → Json
  | leaf raw _ => raw
  | object fields => .obj (fieldValues fields)
  | collection ms => .arr (memberValues ms)
  | free ms => .obj ms

/-- The fields as JSON values. -/
def fieldValues : List (String × Node) → List (String × Json)
  | [] => []
  | (name, n) :: fields => (name, json n) :: fieldValues fields

/-- The members as JSON values. -/
def memberValues : List Node → List Json
  | [] => []
  | n :: ns => json n :: memberValues ns

end

/-! ### Keys -/

mutual

/-- The text that stands for the node in comparisons. -/
def key : Node → String
  | leaf _ k => k
  | object fields => "\x7b" ++ Text.joined "," (fieldKeys fields) ++ "\x7d"
  | collection ms => "[" ++ Text.joined "," (Text.ascending (memberKeys ms)) ++ "]"
  | free ms => (Json.obj ms).text

/-- The fields' names with their keys. -/
def fieldKeys : List (String × Node) → List String
  | [] => []
  | (name, n) :: fields => (name ++ ":" ++ key n) :: fieldKeys fields

/-- The members' keys. -/
def memberKeys : List Node → List String
  | [] => []
  | n :: ns => key n :: memberKeys ns

end

@[simp] theorem fieldValues_nil : fieldValues [] = [] := rfl

@[simp] theorem memberValues_eq_map (ns : List Node) : memberValues ns = ns.map json := by
  induction ns with
  | nil => rfl
  | cons n ns ih => simp [memberValues, ih]

theorem fieldValues_eq_map (fields : List (String × Node)) :
    fieldValues fields = fields.map fun f => (f.1, f.2.json) := by
  induction fields with
  | nil => rfl
  | cons f fields ih => simp [fieldValues, ih]

theorem memberKeys_eq_map (ns : List Node) : memberKeys ns = ns.map key := by
  induction ns with
  | nil => rfl
  | cons n ns ih => simp [memberKeys, ih]

theorem fieldKeys_eq_map (fields : List (String × Node)) :
    fieldKeys fields = fields.map fun f => f.1 ++ ":" ++ f.2.key := by
  induction fields with
  | nil => rfl
  | cons f fields ih => simp [fieldKeys, ih]

/-! ### Missing objects -/

/-- Follows names from one object to the next and creates the objects that are missing.  The
walk stops where a field holds something else; whether it got to the end is said beside the
fields, which keep what was created. -/
def openObjects (fields : Table Node) : List String → Table Node × Bool
  | [] => (fields, true)
  | name :: names =>
    match fields.get? name with
    | none => let below := openObjects [] names; (fields.insert name (object below.1), below.2)
    | some (object inner) =>
      let below := openObjects inner names
      (fields.insert name (object below.1), below.2)
    | some _ => (fields, false)

end Node

end SnapshotDiff
