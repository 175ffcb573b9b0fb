import SnapshotDiff.Instant.Parser
import SnapshotDiff.Node
import SnapshotDiff.Rules

/-!
# Entities

A snapshot read against the shape of its family.  Members that the shape does not declare are
dropped, `null` counts as absent, and a value that does not fit its declaration is an error.

## Main definitions

* `Entity` — what is left of a snapshot.
* `Leaf.key` — the text that stands for a leaf in comparisons.
* `Entity.ofSnapshot` — the entity of a snapshot, which may be absent.
-/

namespace SnapshotDiff

/-- A snapshot read against the shape of its family. -/
structure Entity where
  family : Family
  /-- The fields of the root object. -/
  root : Table Node
  deriving Repr

namespace Entity

/-- The entity as a JSON value. -/
def json (e : Entity) : Json := (Node.object e.root).json

/-- The text that stands for the entity in comparisons. -/
def key (e : Entity) : String := (Node.object e.root).key

end Entity

/-! ### Leaves -/

namespace Leaf

/-- Numbers are compared by value: the digits without an exponent and without the fraction of a
whole number, and of two equally good decimals the greater one. -/
def numberStyle : NumberStyle where
  tie := .up
  positional _ := true
  pointed := false

/-- The text that stands for a value of this kind in comparisons, or why the value is not of
this kind. -/
def key (kind : Leaf) (v : Json) : Except Mismatch String :=
  match kind, v with
  | string, .str _ => .ok v.text
  | string, _ => .error (.unexpected .string v)
  | integer, .int _ => .ok v.text
  | integer, _ => .error (.unexpected .integer v)
  | number, _ =>
    match v.toBinary64? with
    | some x => .ok (String.ofList (x.text numberStyle))
    | none => .error (.unexpected .number v)
  | boolean, .bool _ => .ok v.text
  | boolean, _ => .error (.unexpected .boolean v)
  | dateTime, .str s =>
    match Instant.ofText? s with
    | some t => .ok t.text
    | none => .error (.notDateTime s)
  | dateTime, _ => .error (.unexpected .dateTime v)
  | any, _ => .ok v.text

end Leaf

namespace Node

/-! ### Reading -/

/-- A leaf, read at a path. -/
def ofLeaf (family : Family) (kind : Leaf) (v : Json) (path : String) : Except DiffError Node :=
  match kind.key v with
  | .ok k => .ok (leaf v k)
  | .error cause => .error (.mismatch family path cause)

/-- The members of an object at a path. -/
def objectMembers (family : Family) (v : Json) (path : String) : Except DiffError (Table Json) :=
  match v with
  | .obj ms => .ok ms
  | _ => .error (.mismatch family path (.unexpected .object v))

/-- The items of an array at a path. -/
def arrayItems (family : Family) (v : Json) (path : String) : Except DiffError (List Json) :=
  match v with
  | .arr vs => .ok vs
  | _ => .error (.mismatch family path (.unexpected .array v))

/-- The items of an array from an index on, each read at its path.  Items that are `null` are
passed over and still counted. -/
def ofItems (read : Json → String → Except DiffError Node) (path : String) :
    (index : Nat) → List Json → Except DiffError (List Node)
  | _, [] => .ok []
  | i, .null :: vs => ofItems read path (i + 1) vs
  | i, v :: vs => do
    let n ← read v (Path.item path i)
    return n :: (← ofItems read path (i + 1) vs)

mutual

/-- The fields of an object at a path.  They are read in the order in which they are declared,
and `done` holds those already read. -/
def readFields (family : Family) (path : String) (members : Table Json) (done : Table Node) :
    List (String × FieldShape) → Except DiffError (Table Node)
  | [] => .ok done
  | (name, shape) :: rest =>
    match members.get? name with
    | none | some .null => readFields family path members done rest
    | some v => do
      let n ← readField family (Path.child path name) v shape
      readFields family path members (done.insert name n) rest

/-- A value that is not `null` at a path. -/
def readField (family : Family) (path : String) (v : Json) :
    FieldShape → Except DiffError Node
  | .leaf kind => ofLeaf family kind v path
  | .object _ fields => do
    let members ← objectMembers family v path
    return object (← readFields family path members [] fields)
  | .leaves kind => do
    return collection (← ofItems (ofLeaf family kind) path 0 (← arrayItems family v path))
  | .objects _ fields _ => do
    let read (w : Json) (p : String) : Except DiffError Node := do
      return object (← readFields family p (← objectMembers family w p) [] fields)
    return collection (← ofItems read path 0 (← arrayItems family v path))
  | .free => do return free (← objectMembers family v path)

end

end Node

namespace Entity

/-- A snapshot is of the family unless it has members but none that the family declares, or has
a member that belongs to another family; the first one such in key order is named. -/
def checkFamily (rules : Rules) (members : Table Json) : Except DiffError Unit :=
  let shape := rules.shape
  if !members.isEmpty && !members.keys.any shape.declares then
    .error (rules.mismatch "" (.nothingDeclared shape.typeName))
  else match members.keys.find? fun k => !shape.declares k && rules.foreign k with
    | some k => .error (rules.mismatch k (.foreignField shape.typeName))
    | none => .ok ()

/-- Creates the object at a path, and those on the way to it, where there is none.  A path that
does not lead to an object of the shape has no effect. -/
def openDefault (shape : Shape) (root : Table Node) (path : String) : Table Node :=
  if (shape.objectAt? path).isSome then (Node.openObjects root (Path.segments path)).1 else root

/-- The fields of the root of a snapshot. -/
def readRoot (rules : Rules) : Option Json → Except DiffError (Table Node)
  | none | some .null => .ok []
  | some (.obj members) => do
    let members ← rules.reshaped members
    checkFamily rules members
    Node.readFields rules.family "" members [] rules.shape.fields
  | some v => .error (rules.mismatch "" (.unexpected .object v))

/-- The entity of a snapshot.  An absent snapshot, or `null`, has the default objects only. -/
def ofSnapshot (rules : Rules) (snapshot : Option Json) : Except DiffError Entity := do
  let root ← readRoot rules snapshot
  return ⟨rules.family, rules.defaultObjects.foldl (openDefault rules.shape) root⟩

end Entity

end SnapshotDiff
