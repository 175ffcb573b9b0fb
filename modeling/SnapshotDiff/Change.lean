import SnapshotDiff.Json

/-!
# Changes

What a comparison of two snapshots reports: the fields that differ, and per collection the
members that came, went or changed.

## Main definitions

* `ChangeKind` — added, removed, modified, or no change at all.
* `FieldChange`, `ItemChange`, `CollectionChange` — the single changes.
* `ChangeRecord` — all changes of an entity; there is a record only if something changed.
* `ChangeRecord.of?` — the record of given changes.
-/

namespace SnapshotDiff

/-- The kind of a change. -/
inductive ChangeKind
  /-- Present on the new side only. -/
  | added
  /-- Present on the old side only. -/
  | removed
  /-- Present on both sides with different values. -/
  | modified
  /-- No change. -/
  | nothing
  deriving DecidableEq, Repr

namespace ChangeKind

/-- Every kind. -/
def all : List ChangeKind := [added, removed, modified, nothing]

/-- The kind of a change between two values, from their presence and from whether they are
equal, which matters only if both are present. -/
def classify : (oldPresent newPresent equal : Bool) → ChangeKind
  | false, false, _ => nothing
  | false, true, _ => added
  | true, false, _ => removed
  | true, true, true => nothing
  | true, true, false => modified

/-- Something did change. -/
def isChange (k : ChangeKind) : Bool := k ≠ nothing

/-- The name of the kind. -/
def name : ChangeKind → String
  | added => "ADDED"
  | removed => "REMOVED"
  | modified => "MODIFIED"
  | nothing => "NOTHING"

/-- The kind with a name. -/
def ofName? (s : String) : Option ChangeKind := all.find? fun k => k.name = s

@[simp] theorem ofName?_name (k : ChangeKind) : ofName? k.name = some k := by cases k <;> decide

@[simp] theorem isChange_eq_false_iff (k : ChangeKind) : k.isChange = false ↔ k = nothing := by
  cases k <;> decide

end ChangeKind

/-- A field that differs.  Its value is a leaf or a whole object. -/
structure FieldChange where
  kind : ChangeKind
  /-- The name of the field in its object. -/
  name : String
  /-- The dotted path of the field from the root of the entity. -/
  path : String
  old : Option Json
  new : Option Json
  deriving Repr

/-- A change to one member of a collection. -/
structure ItemChange where
  kind : ChangeKind
  old : Option Json
  new : Option Json
  deriving Repr

namespace ItemChange

/-- A member that is new. -/
def added (value : Json) : ItemChange := ⟨.added, none, some value⟩

/-- A member that is gone. -/
def removed (value : Json) : ItemChange := ⟨.removed, some value, none⟩

/-- A member that is on both sides and differs. -/
def modified (old new : Json) : ItemChange := ⟨.modified, some old, some new⟩

/-- The changes are of one kind and have equal values. -/
def same (a b : ItemChange) : Bool :=
  a.kind == b.kind && Json.same? a.old b.old && Json.same? a.new b.new

end ItemChange

/-- The changes to the members of one collection. -/
structure CollectionChange where
  /-- The dotted path of the collection from the root of the entity. -/
  name : String
  items : List ItemChange
  deriving Repr

namespace CollectionChange

/-- Adds a change, unless an equal one is there. -/
def push (c : CollectionChange) (item : ItemChange) : CollectionChange :=
  if c.items.any (·.same item) then c else { c with items := c.items ++ [item] }

/-- Adds a change to the collection of a name, which is put at the end if there is none. -/
def pushTo (name : String) (item : ItemChange) : List CollectionChange → List CollectionChange
  | [] => [push ⟨name, []⟩ item]
  | c :: cs => if c.name = name then push c item :: cs else c :: pushTo name item cs

end CollectionChange

/-- All changes between two snapshots. -/
structure ChangeRecord where
  fields : List FieldChange
  collections : List CollectionChange
  deriving Repr

namespace ChangeRecord

/-- The record of given changes.  Changes that are none and collections without changes are
left out, and if nothing is left there is no record. -/
def of? (fields : List FieldChange) (collections : List CollectionChange) : Option ChangeRecord :=
  let fields := fields.filter (·.kind.isChange)
  let collections := (collections.map fun c =>
    { c with items := c.items.filter (·.kind.isChange) }).filter fun c => !c.items.isEmpty
  if fields.isEmpty && collections.isEmpty then none else some ⟨fields, collections⟩

/-- The item changes of all collections. -/
def items (r : ChangeRecord) : List ItemChange := r.collections.flatMap (·.items)

/-- The number of field changes and item changes. -/
def size (r : ChangeRecord) : Nat := r.fields.length + r.items.length

/-- The record holds no change. -/
def isEmpty (r : ChangeRecord) : Bool := r.size = 0

/-- The number of field changes and item changes of a kind. -/
def count (r : ChangeRecord) (kind : ChangeKind) : Nat :=
  r.fields.countP (·.kind = kind) + r.items.countP (·.kind = kind)

/-- The first change of the field at a path. -/
def field? (r : ChangeRecord) (path : String) : Option FieldChange :=
  r.fields.find? (·.path = path)

/-- The first changes of the collection with a name. -/
def collection? (r : ChangeRecord) (name : String) : Option CollectionChange :=
  r.collections.find? (·.name = name)

/-- A record that was made of changes holds one. -/
theorem isEmpty_of_of? {fields : List FieldChange} {collections : List CollectionChange}
    {r : ChangeRecord} (h : of? fields collections = some r) : r.isEmpty = false := by
  simp only [of?] at h
  split at h
  · cases h
  · next hne =>
    obtain rfl := Option.some.inj h
    simp only [isEmpty, size, items, decide_eq_false_iff_not, Nat.add_eq_zero_iff, not_and]
    intro hf hi
    refine hne ?_
    simp only [Bool.and_eq_true, List.isEmpty_iff]
    refine ⟨List.eq_nil_of_length_eq_zero hf, ?_⟩
    refine List.filter_eq_nil_iff.mpr fun c hc hne => ?_
    have hall := List.flatMap_eq_nil_iff.mp (List.eq_nil_of_length_eq_zero hi) c
      (List.mem_filter.mpr ⟨hc, hne⟩)
    simp [hall] at hne

end ChangeRecord

end SnapshotDiff
