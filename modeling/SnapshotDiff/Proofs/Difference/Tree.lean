import SnapshotDiff.Proofs.Change.Fields
import SnapshotDiff.Proofs.Shape.Names

/-!
# Differences as a tree

The findings of two entities name their owners, and that is all that ties a finding on a member of a
collection to the member.  Here the same walk yields a tree instead: what is found on a member that
is there on both sides hangs below the member.  A list of findings is such a tree, written out from
an owner on.

## Main definitions

* `Difference` — a difference of two objects; `Difference.ofFields` — those of their fields.
* `Difference.findings` — a difference written out from an owner on.

## Main results

* `Finding.ofFields_eq_findings` — the findings are the tree, written out.
-/

namespace SnapshotDiff

open Finding (sides sideKeys byKey byIdentity members presentObject? identityKey)

/-- A difference of two objects. -/
inductive Difference
  /-- One of the fields differs. -/
  | field (change : FieldChange)
  /-- A member of the collection at a path is there on one side only. -/
  | oneSided (typeName path key : String) (kind : ChangeKind) (value : Json)
  /-- A member of the collection at a path is there on both sides, with its own differences. -/
  | twoSided (typeName path key : String) (old new : Json) (inner : List Difference)

namespace Difference

/-! ### The walk -/

/-- The differences of one member of a collection. -/
def ofSides {α : Type} (typeName path : String) (json : α → Json)
    (both : String → α → α → List Difference) (key : String) :
    Option α → Option α → List Difference
  | some a, none => [oneSided typeName path key .removed (json a)]
  | none, some b => [oneSided typeName path key .added (json b)]
  | some a, some b => both key a b
  | none, none => []

mutual

/-- The differences of the fields of two objects at a path. -/
def ofFields (rules : Rules) (path : String) (old new : Table Node) :
    List (String × FieldShape) → List Difference
  | [] => []
  | (name, s) :: rest =>
    (if rules.reportable (Path.child path name) then
      ofField rules name (Path.child path name) (old.get? name) (new.get? name) s
    else []) ++ ofFields rules path old new rest

/-- The differences of a field at a path. -/
def ofField (rules : Rules) (name path : String) (old new : Option Node) :
    FieldShape → List Difference
  | .leaf _ =>
    (FieldChange.ofLeaves name path (old.bind Node.leaf?) (new.bind Node.leaf?)).map field
  | .object _ fields =>
    match presentObject? rules path old, presentObject? rules path new with
    | some fs, some gs => ofFields rules path fs gs fields
    | fs, gs =>
      (FieldChange.ofValues name path (fs.map fun fs => (Node.object fs).json)
        (gs.map fun gs => (Node.object gs).json) false).map field
  | .leaves _ =>
    sides (ofSides "Value" path Node.json fun _ _ _ => []) (byKey (members old))
      (byKey (members new))
  | .objects typeName _ none =>
    sides (ofSides typeName path Node.json fun _ _ _ => []) (byKey (members old))
      (byKey (members new))
  | .objects typeName fields (some identity) =>
    sides
      (ofSides typeName path (fun fs => (Node.object fs).json) fun key fs gs =>
        [twoSided typeName path key (Node.object fs).json (Node.object gs).json
          (ofFields rules path fs gs fields)])
      (byIdentity identity (members old)) (byIdentity identity (members new))
  | .free =>
    (FieldChange.ofFree rules path ((old.bind Node.free?).getD [])
      ((new.bind Node.free?).getD [])).map field

end

theorem ofFields_eq_flatMap {rules : Rules} {path : String} (old new : Table Node)
    (fields : List (String × FieldShape)) :
    ofFields rules path old new fields = fields.flatMap fun f =>
      if rules.reportable (Path.child path f.1) then
        ofField rules f.1 (Path.child path f.1) (old.get? f.1) (new.get? f.1) f.2
      else [] := by
  induction fields with
  | nil => rw [ofFields]; rfl
  | cons f fields ih => rw [ofFields, ih, List.flatMap_cons]

/-! ### Written out -/

mutual

/-- The findings that a difference of an owner stands for. -/
def findings (o : Owner) : Difference → List Finding
  | field change => [.field o change]
  | oneSided typeName path key kind value => [Finding.ofMember o typeName path kind key value]
  | twoSided typeName path key old new inner =>
    .matched ⟨o, path⟩ (o.member typeName path key) old new
      :: allFindings (o.member typeName path key) inner

/-- The findings that the differences of an owner stand for. -/
def allFindings (o : Owner) : List Difference → List Finding
  | [] => []
  | d :: ds => findings o d ++ allFindings o ds

end

theorem allFindings_eq_flatMap (o : Owner) (ds : List Difference) :
    allFindings o ds = ds.flatMap (findings o) := by
  induction ds with
  | nil => rfl
  | cons d ds ih => rw [allFindings, ih, List.flatMap_cons]

theorem allFindings_append (o : Owner) (ds es : List Difference) :
    allFindings o (ds ++ es) = allFindings o ds ++ allFindings o es := by
  simp only [allFindings_eq_flatMap, List.flatMap_append]

theorem allFindings_flatMap {α : Type} (o : Owner) (l : List α) (f : α → List Difference) :
    allFindings o (l.flatMap f) = l.flatMap fun a => allFindings o (f a) := by
  rw [allFindings_eq_flatMap, List.flatMap_assoc]
  exact List.flatMap_congr fun a _ => (allFindings_eq_flatMap o (f a)).symm

theorem allFindings_map_field (o : Owner) (cs : List FieldChange) :
    allFindings o (cs.map field) = cs.map (Finding.field o) := by
  induction cs with
  | nil => rfl
  | cons c cs ih => rw [List.map_cons, allFindings, ih]; rfl

end Difference

namespace Finding

open Difference (allFindings)

variable {rules : Rules}

/-- Members are written out one by one. -/
theorem sides_eq_findings {α : Type} {o : Owner} {typeName path : String} {json : α → Json}
    {both : String → α → α → List Finding} {inner : String → α → α → List Difference}
    (h : ∀ k a b, both k a b = allFindings o (inner k a b)) (olds news : List (String × α)) :
    sides (ofSides o typeName path json both) olds news
      = allFindings o (sides (Difference.ofSides typeName path json inner) olds news) := by
  -- member by member the findings are the differences, written out
  have hone : ∀ k a b, ofSides o typeName path json both k a b
      = allFindings o (Difference.ofSides typeName path json inner k a b) := by
    intro k a b
    cases a <;> cases b <;> simp [ofSides, Difference.ofSides, allFindings, Difference.findings, h]
  rw [sides, sides, Difference.allFindings_append, Difference.allFindings_flatMap,
    Difference.allFindings_flatMap]
  simp only [hone]

theorem ofField_eq_findings (s : FieldShape) : ∀ (o : Owner) (name path : String)
    (old new : Option Node), ofField rules o name path old new s
      = allFindings o (Difference.ofField rules name path old new s) := by
  -- objects are walked in fields and in members alike
  have hfields : ∀ fields : List (String × FieldShape),
      (∀ f ∈ fields, ∀ (o : Owner) (name path : String) (old new : Option Node),
        ofField rules o name path old new f.2
          = allFindings o (Difference.ofField rules name path old new f.2)) →
      ∀ (o : Owner) (path : String) (old new : Table Node), ofFields rules o path old new fields
        = allFindings o (Difference.ofFields rules path old new fields) := by
    intro fields ih o path old new
    rw [ofFields_eq_flatMap, Difference.ofFields_eq_flatMap, Difference.allFindings_flatMap]
    apply List.flatMap_congr
    intro f hf
    split
    · exact ih f hf o f.1 _ _ _
    · rfl
  induction s using FieldShape.fieldInduction with
  | leaf kind =>
    intro o name path old new
    rw [ofField, ofLeaves_eq_map, Difference.ofField, Difference.allFindings_map_field]
  | object typeName fields ih =>
    intro o name path old new
    rw [ofField.eq_def, Difference.ofField.eq_def]
    dsimp only
    cases presentObject? rules path old <;> cases presentObject? rules path new
    · exact (ofValues_eq_map ..).trans (Difference.allFindings_map_field ..).symm
    · exact (ofValues_eq_map ..).trans (Difference.allFindings_map_field ..).symm
    · exact (ofValues_eq_map ..).trans (Difference.allFindings_map_field ..).symm
    · exact hfields fields ih o path _ _
  | leaves kind =>
    intro o name path old new
    rw [ofField, Difference.ofField, ofSets_eq_sides]
    refine sides_eq_findings (fun _ _ _ => ?_) _ _
    rfl
  | objects typeName fields identity ih =>
    intro o name path old new
    cases identity with
    | none =>
      rw [ofField, Difference.ofField, ofSets_eq_sides]
      refine sides_eq_findings (fun _ _ _ => ?_) _ _
      rfl
    | some identity =>
      rw [ofField_objects_eq_sides, Difference.ofField]
      refine sides_eq_findings (fun key fs gs => ?_) _ _
      rw [ofMatch, hfields fields ih]
      simp only [allFindings, Difference.findings, List.append_nil]
  | free =>
    intro o name path old new
    rw [ofField, ofFree_eq_map, Difference.ofField, Difference.allFindings_map_field]

/-- **The findings are the tree of differences, written out.** -/
theorem ofFields_eq_findings (o : Owner) (path : String) (old new : Table Node)
    (fields : List (String × FieldShape)) : ofFields rules o path old new fields
      = allFindings o (Difference.ofFields rules path old new fields) := by
  rw [ofFields_eq_flatMap, Difference.ofFields_eq_flatMap, Difference.allFindings_flatMap]
  refine List.flatMap_congr fun f _ => ?_
  split
  · exact ofField_eq_findings f.2 o f.1 _ _ _
  · rfl

end Finding

end SnapshotDiff
