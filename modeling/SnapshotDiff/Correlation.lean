import SnapshotDiff.Finding

/-!
# Correlations

Findings grouped by the objects that they are about.

## Main definitions

* `Group` — all findings about one object.
* `Correlation` — the groups, in the order in which their objects were first found.
* `Correlation.ofFindings` — the correlation of a list of findings.
* `Correlation.dirty` — the members of collections that hold a change, in themselves or in a
  member further down.
-/

namespace SnapshotDiff

/-- An object came into a collection or left it. -/
structure Membership where
  site : Site
  kind : ChangeKind
  value : Json
  deriving Repr

/-- An object is in a collection on both sides. -/
structure Match where
  site : Site
  old : Json
  new : Json
  deriving Repr

/-- All findings about one object. -/
structure Group where
  /-- The place of the first of them among all findings. -/
  firstSeen : Nat
  fields : List FieldChange := []
  memberships : List Membership := []
  /-- The last match of the object. -/
  matched : Option Match := none
  deriving Repr

namespace Group

/-- The object came into a collection or left it. -/
def isMembership (g : Group) : Bool := !g.memberships.isEmpty

/-- One of the object's fields changed. -/
def hasFieldChanges (g : Group) : Bool := g.fields.any (·.kind.isChange)

/-- The group with one more finding. -/
def add (g : Group) : Finding → Group
  | .field _ change => { g with fields := g.fields ++ [change] }
  | .member site _ kind value => { g with memberships := g.memberships ++ [⟨site, kind, value⟩] }
  | .matched site _ old new => { g with matched := some ⟨site, old, new⟩ }

end Group

/-- Groups by the objects that they are about, in the order in which these were first found. -/
structure Correlation where
  groups : List (Owner × Group)
  deriving Repr

namespace Correlation

/-- Puts the finding at place `i` into the group of its object; a new group goes to the end. -/
def add (i : Nat) (f : Finding) : List (Owner × Group) → List (Owner × Group)
  | [] => [(f.owner, ({ firstSeen := i } : Group).add f)]
  | (o, g) :: gs => if o = f.owner then (o, g.add f) :: gs else (o, g) :: add i f gs

/-- The groups once the findings from place `i` on have been put into them. -/
def addAll (gs : List (Owner × Group)) : (i : Nat) → List Finding → List (Owner × Group)
  | _, [] => gs
  | i, f :: fs => addAll (add i f gs) (i + 1) fs

/-- The correlation of a list of findings. -/
def ofFindings (fs : List Finding) : Correlation := ⟨addAll [] 0 fs⟩

/-- The group of an object. -/
def get? (c : Correlation) (o : Owner) : Option Group := c.groups.lookup o

/-- The number of groups. -/
def size (c : Correlation) : Nat := c.groups.length

/-- The owner of the collection in which an object was matched. -/
def parent? (c : Correlation) (o : Owner) : Option Owner :=
  ((c.get? o).bind (·.matched)).map (·.site.owner)

/-! ### Members that hold a change -/

/-- The members of collections at which a change was found: one of their fields, or what
belongs to one of their collections.  What came or left is not looked into. -/
def changed (c : Correlation) : List Owner :=
  c.groups.flatMap fun (o, g) =>
    if g.isMembership then (g.memberships.map (·.site.owner)).filter (!·.isRoot)
    else if !o.isRoot && g.hasFieldChanges then [o] else []

/-- The parents of the given objects that are not the root and not among them. -/
def newParents (c : Correlation) (os : List Owner) : List Owner :=
  ((os.filterMap c.parent?).filter fun p => !p.isRoot && !os.contains p).eraseDups

/-- Adds parents, at most so many times. -/
def addParents (c : Correlation) : (times : Nat) → List Owner → List Owner
  | 0, os => os
  | times + 1, os =>
    match c.newParents os with
    | [] => os
    | ps => addParents c times (ps ++ os)

/-- The members of collections that hold a change, in themselves or in a member further down.
Every step upward adds the parent of a group, and each group has one parent, so there are no
more steps than groups. -/
def dirty (c : Correlation) : List Owner := c.addParents c.size c.changed.eraseDups

/-! ### The record -/

/-- The changes of the fields of the root. -/
def fieldChanges (c : Correlation) : List FieldChange :=
  c.groups.flatMap fun (o, g) => if o.isRoot then g.fields.filter (·.kind.isChange) else []

/-- The item of the record that an arrival or a departure makes. -/
def itemOf? (m : Membership) : Option ItemChange :=
  match m.kind with
  | .removed => some (.removed m.value)
  | .added => some (.added m.value)
  | _ => none

/-- The items that a group contributes to the collections of the root.  What came or left is
reported as such only, and a match is reported if it is dirty. -/
def itemsOf (dirty : List Owner) (o : Owner) (g : Group) : List (String × ItemChange) :=
  if g.isMembership then
    (g.memberships.filter (·.site.owner.isRoot)).filterMap fun m =>
      (itemOf? m).map (m.site.collection, ·)
  else match g.matched with
    | some m =>
      if m.site.owner.isRoot && dirty.contains o then
        [(m.site.collection, .modified m.old m.new)]
      else []
    | none => []

/-- The changes of the collections of the root. -/
def collectionChanges (c : Correlation) : List CollectionChange :=
  let dirty := c.dirty
  (c.groups.flatMap fun (o, g) => itemsOf dirty o g).foldl
    (fun cs i => CollectionChange.pushTo i.1 i.2 cs) []

/-- The record of the changes, if there are any. -/
def record? (c : Correlation) : Option ChangeRecord :=
  ChangeRecord.of? c.fieldChanges c.collectionChanges

end Correlation

end SnapshotDiff
