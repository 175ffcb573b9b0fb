import SnapshotDiff.Proofs.Correlation.Order

/-!
# Records apart from the values of fields

The values of a field change are passed on into the record and looked at nowhere on the way.  So
findings that differ only in these give records that differ only in these.

## Main definitions

* `Finding.valueless`, `ChangeRecord.valueless` — findings and records without the values of field
  changes.

## Main results

* `Correlation.record?_map_valueless` — **the record of findings without values** is the record
  without values.
-/

namespace SnapshotDiff

/-- The change of the field without its values: its kind, its name and its path are left. -/
def FieldChange.valueless (c : FieldChange) : FieldChange := { c with old := none, new := none }

namespace Finding

/-- The finding without the values of a field. -/
def valueless : Finding → Finding
  | field o change => field o change.valueless
  | member site o kind value => member site o kind value
  | matched site o old new => matched site o old new

@[simp] theorem owner_valueless (f : Finding) : f.valueless.owner = f.owner := by cases f <;> rfl

@[simp] theorem change?_valueless (f : Finding) :
    f.valueless.change? = f.change?.map FieldChange.valueless := by cases f <;> rfl

@[simp] theorem membership?_valueless (f : Finding) :
    f.valueless.membership? = f.membership? := by cases f <;> rfl

@[simp] theorem match?_valueless (f : Finding) : f.valueless.match? = f.match? := by
  cases f <;> rfl

theorem about_map_valueless (o : Owner) (fs : List Finding) :
    about o (fs.map valueless) = (about o fs).map valueless := by
  rw [about, about, List.filter_map]
  exact congrArg _ (List.filter_congr fun f _ => by rw [Function.comp_apply, owner_valueless])

end Finding

namespace ChangeRecord

/-- The record without the values of field changes. -/
def valueless (r : ChangeRecord) : ChangeRecord :=
  { r with fields := r.fields.map FieldChange.valueless }

theorem of?_map_valueless (fields : List FieldChange) (collections : List CollectionChange) :
    of? (fields.map FieldChange.valueless) collections
      = (of? fields collections).map valueless := by
  have hfilter : (fields.map FieldChange.valueless).filter (·.kind.isChange)
      = (fields.filter (·.kind.isChange)).map FieldChange.valueless := by
    rw [List.filter_map]
    rfl
  simp only [of?, hfilter, List.isEmpty_map]
  split <;> rfl

end ChangeRecord

namespace Correlation

open Finding

variable (fs : List Finding) (o : Owner)

/-! ### Groups -/

theorem owners_map_valueless : (fs.map valueless).map owner = fs.map owner := by
  rw [List.map_map]
  exact List.map_congr_left fun f _ => f.owner_valueless

theorem fields_groupOf_valueless : (groupOf (fs.map valueless) o).fields
    = (groupOf fs o).fields.map FieldChange.valueless := by
  rw [groupOf, groupOf, about_map_valueless]
  simp only [Group.ofFindings, List.filterMap_map, List.map_filterMap]
  exact List.filterMap_congr fun f _ => f.change?_valueless

theorem memberships_groupOf_valueless :
    (groupOf (fs.map valueless) o).memberships = (groupOf fs o).memberships := by
  rw [groupOf, groupOf, about_map_valueless]
  simp only [Group.ofFindings, List.filterMap_map]
  exact List.filterMap_congr fun f _ => f.membership?_valueless

theorem matched_groupOf_valueless :
    (groupOf (fs.map valueless) o).matched = (groupOf fs o).matched := by
  rw [groupOf, groupOf, about_map_valueless]
  simp only [Group.ofFindings, List.filterMap_map]
  exact congrArg _ (List.filterMap_congr fun f _ => f.match?_valueless)

/-! ### Members that hold a change -/

theorem changed_map_valueless :
    (ofFindings (fs.map valueless)).changed = (ofFindings fs).changed := by
  rw [changed, changed, groups_ofFindings, groups_ofFindings, owners_map_valueless,
    List.flatMap_map, List.flatMap_map]
  refine List.flatMap_congr fun o _ => ?_
  -- a field change is one with or without its values
  have hfields : (groupOf (fs.map valueless) o).hasFieldChanges
      = (groupOf fs o).hasFieldChanges := by
    rw [Group.hasFieldChanges, Group.hasFieldChanges, fields_groupOf_valueless, List.any_map]
    rfl
  have hmember : (groupOf (fs.map valueless) o).isMembership = (groupOf fs o).isMembership := by
    rw [Group.isMembership, Group.isMembership, memberships_groupOf_valueless]
  dsimp only
  rw [hmember, hfields, memberships_groupOf_valueless]

theorem parent?_map_valueless :
    (ofFindings (fs.map valueless)).parent? o = (ofFindings fs).parent? o := by
  have hlast : lastMatch? (fs.map valueless) o = lastMatch? fs o := matched_groupOf_valueless fs o
  rw [parent?_ofFindings, parent?_ofFindings, hlast]

/-- The same members hold a change. -/
theorem contains_dirty_map_valueless :
    (ofFindings (fs.map valueless)).dirty.contains o = (ofFindings fs).dirty.contains o := by
  have hchanged := changed_map_valueless fs
  have hparent := parent?_map_valueless fs
  rw [Bool.eq_iff_iff, List.contains_iff_mem, List.contains_iff_mem, mem_dirty_iff, mem_dirty_iff]
  constructor
  · exact HoldsChange.mono (fun _ h => hchanged ▸ h) hparent
  · exact HoldsChange.mono (fun _ h => hchanged ▸ h) fun o => (hparent o).symm

/-! ### The record -/

theorem fieldChanges_map_valueless : (ofFindings (fs.map valueless)).fieldChanges
    = (ofFindings fs).fieldChanges.map FieldChange.valueless := by
  rw [fieldChanges, fieldChanges, groups_ofFindings, groups_ofFindings, owners_map_valueless,
    List.flatMap_map, List.flatMap_map, List.map_flatMap]
  refine List.flatMap_congr fun o _ => ?_
  dsimp only
  split
  · rw [fields_groupOf_valueless, List.filter_map]
    rfl
  · rfl

theorem collectionChanges_map_valueless :
    (ofFindings (fs.map valueless)).collectionChanges = (ofFindings fs).collectionChanges := by
  have hitems : ∀ o, itemsOf (ofFindings (fs.map valueless)).dirty o (groupOf (fs.map valueless) o)
      = itemsOf (ofFindings fs).dirty o (groupOf fs o) := by
    intro o
    rw [itemsOf, itemsOf, Group.isMembership, Group.isMembership, memberships_groupOf_valueless,
      matched_groupOf_valueless, contains_dirty_map_valueless]
  simp only [collectionChanges, flatMap_itemsOf, owners_map_valueless, hitems]

/-- **The record of findings without values** is the record without values. -/
theorem record?_map_valueless : (ofFindings (fs.map valueless)).record?
    = (ofFindings fs).record?.map ChangeRecord.valueless := by
  rw [record?, record?, fieldChanges_map_valueless, collectionChanges_map_valueless,
    ChangeRecord.of?_map_valueless]

end Correlation

end SnapshotDiff
