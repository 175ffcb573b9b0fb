import SnapshotDiff.Path

/-!
# Shapes

The shape of a family of entities: which fields an object has, in which order, and what each
of them holds.  Only what a shape declares is read from a snapshot.

## Main definitions

* `Leaf` — what a field without inner structure holds.
* `FieldShape` — what a field holds.
* `Shape` — a named object with its fields.
* `Shape.objectAt?` — the object that a path of nested objects leads to.
-/

namespace SnapshotDiff

/-- What a value without inner structure is. -/
inductive Leaf
  | string
  | integer
  | number
  | boolean
  /-- A date-time text, which stands for an instant. -/
  | dateTime
  /-- Any JSON value. -/
  | any
  deriving DecidableEq, Repr

namespace Leaf

/-- Every kind of leaf. -/
def all : List Leaf := [string, integer, number, boolean, dateTime, any]

/-- The name of the kind. -/
def name : Leaf → String
  | string => "string"
  | integer => "integer"
  | number => "number"
  | boolean => "boolean"
  | dateTime => "datetime"
  | any => "any"

/-- The kind with a name. -/
def ofName? (s : String) : Option Leaf := all.find? fun k => k.name = s

end Leaf

/-- What a field holds.  The fields of an object are listed in their declared order. -/
inductive FieldShape
  | leaf (kind : Leaf)
  | object (typeName : String) (fields : List (String × FieldShape))
  /-- A collection of leaves. -/
  | leaves (kind : Leaf)
  /-- A collection of objects.  With an `identity`, members of two snapshots belong together if
  they agree on the field of that name; without one, if they agree altogether. -/
  | objects (typeName : String) (fields : List (String × FieldShape)) (identity : Option String)
  /-- An object with arbitrary keys and values. -/
  | free
  deriving Repr

/-- A named object with its fields in their declared order. -/
structure Shape where
  typeName : String
  fields : List (String × FieldShape)
  deriving Repr

namespace Shape

/-- What the first field of a name holds. -/
def field? (s : Shape) (name : String) : Option FieldShape := s.fields.lookup name

/-- The shape has a field of this name. -/
def declares (s : Shape) (name : String) : Bool := (s.field? name).isSome

/-- The object that the field of a name holds. -/
def object? (s : Shape) (name : String) : Option Shape :=
  match s.field? name with
  | some (.object typeName fields) => some ⟨typeName, fields⟩
  | _ => none

/-- The object that the names of nested objects lead to. -/
def objectBelow? (s : Shape) : List String → Option Shape
  | [] => some s
  | name :: names => (s.object? name).bind (objectBelow? · names)

/-- The object at a path of nested objects. -/
def objectAt? (s : Shape) (path : String) : Option Shape := s.objectBelow? (Path.segments path)

end Shape

namespace FieldShape

/-! ### Declarations -/

/-- A field that holds a leaf. -/
def field (name : String) (kind : Leaf) : String × FieldShape := (name, leaf kind)

/-- Fields that hold strings. -/
def strings (names : List String) : List (String × FieldShape) := names.map (field · .string)

/-- A field that holds an object. -/
def nested (name : String) (shape : Shape) : String × FieldShape :=
  (name, object shape.typeName shape.fields)

/-- A field that holds a collection of strings. -/
def stringList (name : String) : String × FieldShape := (name, leaves .string)

/-- A field that holds a collection of objects which are compared altogether. -/
def objectList (name : String) (shape : Shape) : String × FieldShape :=
  (name, objects shape.typeName shape.fields none)

/-- A field that holds a collection of objects which are told apart by one of their fields. -/
def identified (name : String) (shape : Shape) (identity : String) : String × FieldShape :=
  (name, objects shape.typeName shape.fields (some identity))

end FieldShape

end SnapshotDiff
