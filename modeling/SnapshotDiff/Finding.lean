import SnapshotDiff.Change
import SnapshotDiff.Entity

/-!
# Findings

The differences between two entities of a family, one by one.  Both entities are walked in
step, along the fields that their shape declares.  Each finding names its owner: the object on
which it was made.

## Main definitions

* `Owner` — the root of the entity, or a member of a collection.
* `Site` — a collection of an owner.
* `Finding` — a field that differs, a member on one side only, or a member on both sides.
* `Finding.between` — the findings of two entities.

Collections are sets.  Leaves and objects without an identity are members of both sides if
their keys are equal; objects with an identity, if their identities are.
-/

namespace SnapshotDiff

/-- An object on which changes are found.  The root has the empty identity; the identity of a
member is made of that of the owner of its collection, the collection's path and its own key. -/
structure Owner where
  typeName : String
  identity : String
  deriving DecidableEq, Repr

namespace Owner

/-- The root of an entity. -/
def root (typeName : String) : Owner := ⟨typeName, ""⟩

/-- The owner is the root of its entity. -/
def isRoot (o : Owner) : Bool := o.identity = ""

/-- The member with a key in the collection of the owner at a path. -/
def member (o : Owner) (typeName collection key : String) : Owner :=
  ⟨typeName, o.identity ++ "/" ++ collection ++ "[" ++ key ++ "]"⟩

@[simp] theorem isRoot_root (typeName : String) : (root typeName).isRoot := rfl

end Owner

/-- A collection: its owner and its path from the root of the entity. -/
structure Site where
  owner : Owner
  collection : String
  deriving DecidableEq, Repr

/-- A difference between two entities. -/
inductive Finding
  /-- A field of `owner` differs. -/
  | field (owner : Owner) (change : FieldChange)
  /-- `member` belongs to the collection on one side only. -/
  | member (site : Site) (member : Owner) (kind : ChangeKind) (value : Json)
  /-- `member` belongs to the collection on both sides.  Its own differences, if there are any,
  follow. -/
  | matched (site : Site) (member : Owner) (old new : Json)
  deriving Repr

namespace Finding

/-- The object that the finding is about. -/
def owner : Finding → Owner
  | field o _ => o
  | member _ o _ _ => o
  | matched _ o _ _ => o

/-! ### Fields -/

/-- The finding of a field whose values may be absent, unless there is no change. -/
def ofValues (o : Owner) (name path : String) (old new : Option Json) (equal : Bool) :
    List Finding :=
  let kind := ChangeKind.classify old.isSome new.isSome equal
  if kind.isChange then [field o ⟨kind, name, path, old, new⟩] else []

/-- A leaf differs if its key does. -/
def ofLeaves (o : Owner) (name path : String) (old new : Option (Json × String)) : List Finding :=
  ofValues o name path (old.map Prod.fst) (new.map Prod.fst)
    (match old, new with
      | some a, some b => a.2 == b.2
      | _, _ => false)

/-! ### Free objects -/

/-- A value that is there and is not `null`. -/
def present? : Option Json → Option Json
  | some .null => none
  | v => v

/-- The members that only the new side of a free object has. -/
def newMembers (rules : Rules) (o : Owner) (path : String) (old : Table Json) :
    Table Json → List Finding
  | [] => []
  | (k, v) :: new =>
    let below := Path.child path k
    (if rules.reportable below && !old.contains k then
      ofValues o k below none (present? (some v)) false
    else []) ++ newMembers rules o path old new

mutual

/-- The members that the old side of a free object has, compared with the new side. -/
def oldMembers (rules : Rules) (o : Owner) (path : String) (new : Table Json) :
    (old : List (String × Json)) → List Finding
  | [] => []
  | (k, v) :: old =>
    let below := Path.child path k
    (if rules.reportable below then ofFreeMember rules o k below (present? (Table.get? new k)) v
    else []) ++ oldMembers rules o path new old

/-- A member of a free object, compared with the value that the new side has in its place.  Two
objects are compared member by member. -/
def ofFreeMember (rules : Rules) (o : Owner) (name path : String) (new : Option Json) :
    (old : Json) → List Finding
  | .obj ms =>
    match new with
    | some (.obj ns) => oldMembers rules o path ns ms ++ newMembers rules o path ms ns
    | _ => ofValues o name path (some (.obj ms)) new false
  | v => ofValues o name path (present? (some v)) new (Json.same? (present? (some v)) new)

end

/-- The findings in a free object: the old members in order, then those that only the new side
has. -/
def ofFree (rules : Rules) (o : Owner) (path : String) (old new : Table Json) : List Finding :=
  oldMembers rules o path new old ++ newMembers rules o path old new

/-! ### Collections -/

/-- The members with their keys; of members with one key only the first. -/
def firstByKey {α : Type} : (seen : List String) → List (String × α) → List (String × α)
  | _, [] => []
  | seen, (k, a) :: ms =>
    if seen.contains k then firstByKey seen ms else (k, a) :: firstByKey (k :: seen) ms

/-- The finding of a member on one side only. -/
def ofMember (o : Owner) (typeName path : String) (kind : ChangeKind) (key : String)
    (value : Json) : Finding :=
  member ⟨o, path⟩ (o.member typeName path key) kind value

/-- The members that `these` has and `others` lacks. -/
def onlyIn {α : Type} (these others : List (String × α)) : List (String × α) :=
  these.filter fun m => (others.lookup m.1).isNone

/-- Nodes with their keys. -/
def byKey (ns : List Node) : List (String × Node) := firstByKey [] (ns.map fun n => (n.key, n))

/-- The members of one side only of a collection whose members have no identity: first those
that are gone, then those that are new. -/
def ofSets (o : Owner) (typeName path : String) (old new : List Node) : List Finding :=
  let olds := byKey old
  let news := byKey new
  (onlyIn olds news).map (fun m => ofMember o typeName path .removed m.1 m.2.json)
    ++ (onlyIn news olds).map fun m => ofMember o typeName path .added m.1 m.2.json

/-- The key of a member with an identity: that of its identity, or where that is absent the key
of the whole member.  The sign in front keeps the two apart. -/
def identityKey (identity : String) (fields : Table Node) : String :=
  match fields.get? identity with
  | some n => "#" ++ n.key
  | none => "~" ++ (Node.object fields).key

/-- Objects with their identities. -/
def byIdentity (identity : String) (ns : List Node) : List (String × Table Node) :=
  firstByKey [] ((ns.filterMap Node.object?).map fun fs => (identityKey identity fs, fs))

/-! ### The walk -/

/-- The object at a path, if it counts as present: an empty one does only at the path of a
default object. -/
def presentObject? (rules : Rules) (path : String) (n : Option Node) : Option (Table Node) :=
  (n.bind Node.object?).filter fun fs => rules.defaultObjects.contains path || !fs.isEmpty

/-- The members of a collection; none if it is absent. -/
def members (n : Option Node) : List Node := (n.bind Node.collection?).getD []

mutual

/-- The findings on the fields of an object at a path. -/
def ofFields (rules : Rules) (o : Owner) (path : String) (old new : Table Node) :
    List (String × FieldShape) → List Finding
  | [] => []
  | (name, shape) :: rest =>
    let below := Path.child path name
    (if rules.reportable below then
      ofField rules o name below (old.get? name) (new.get? name) shape
    else []) ++ ofFields rules o path old new rest

/-- The findings on a field at a path. -/
def ofField (rules : Rules) (o : Owner) (name path : String) (old new : Option Node) :
    FieldShape → List Finding
  | .leaf _ => ofLeaves o name path (old.bind Node.leaf?) (new.bind Node.leaf?)
  | .object _ fields =>
    match presentObject? rules path old, presentObject? rules path new with
    | some fs, some gs => ofFields rules o path fs gs fields
    | fs, gs =>
      ofValues o name path (fs.map fun fs => (Node.object fs).json)
        (gs.map fun gs => (Node.object gs).json) false
  | .leaves _ => ofSets o "Value" path (members old) (members new)
  | .objects typeName _ none => ofSets o typeName path (members old) (members new)
  | .objects typeName fields (some identity) =>
    let olds := byIdentity identity (members old)
    let news := byIdentity identity (members new)
    (olds.flatMap fun m =>
      match news.lookup m.1 with
      | none => [ofMember o typeName path .removed m.1 (Node.object m.2).json]
      | some gs =>
        let self := o.member typeName path m.1
        matched ⟨o, path⟩ self (Node.object m.2).json (Node.object gs).json
          :: ofFields rules self path m.2 gs fields)
      ++ (onlyIn news olds).map fun m =>
        ofMember o typeName path .added m.1 (Node.object m.2).json
  | .free =>
    ofFree rules o path ((old.bind Node.free?).getD []) ((new.bind Node.free?).getD [])

end

/-- The findings of two entities, which must have been read as entities of the rules'
family. -/
def between (rules : Rules) (old new : Entity) : Except DiffError (List Finding) :=
  match [old, new].find? fun e => e.family ≠ rules.family with
  | some e => .error (rules.mismatch "" (.otherFamily e.family))
  | none =>
    .ok (ofFields rules (Owner.root rules.shape.typeName) "" old.root new.root rules.shape.fields)

end Finding

end SnapshotDiff
