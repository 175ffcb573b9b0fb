import SnapshotDiff.Proofs.Change.Alike
import SnapshotDiff.Proofs.Correlation.Dirty
import SnapshotDiff.Proofs.Correlation.Groups

/-!
# Findings in another order

The order in which findings come decides in which order a record lists its changes, and which of
several matches of an object its group keeps.  Apart from that it decides nothing: findings in
another order with the same last matches give a record that tells the same.

## Main definitions

* `Correlation.items` — what the groups contribute to the collections of the root.

## Main results

* `Correlation.record?_eq` — the record leaves out nothing that the groups contribute.
* `Correlation.rel_record?_of_perm` — the records of findings in two orders are alike.
-/

namespace SnapshotDiff

open Finding

namespace Correlation

variable {fs gs : List Finding} {o : Owner}

theorem about_perm (h : fs.Perm gs) (o : Owner) : (about o fs).Perm (about o gs) := h.filter _

/-- What the groups contribute to the collections of the root. -/
def items (c : Correlation) : List (String × ItemChange) :=
  c.groups.flatMap fun e => itemsOf c.dirty e.1 e.2

/-- A membership, a departure or a match that is told of is a change. -/
theorem isChange_of_mem_itemsOf {dirty : List Owner} {g : Group} :
    ∀ i ∈ itemsOf dirty o g, i.2.kind.isChange := by
  intro i hi
  unfold itemsOf at hi
  split at hi
  · obtain ⟨m, -, hm⟩ := List.mem_filterMap.mp hi
    obtain ⟨item, hitem, rfl⟩ := Option.map_eq_some_iff.mp hm
    unfold itemOf? at hitem
    split at hitem
    · exact Option.some.inj hitem ▸ rfl
    · exact Option.some.inj hitem ▸ rfl
    · simp at hitem
  · split at hi
    · split at hi
      · exact List.mem_singleton.mp hi ▸ rfl
      · exact absurd hi List.not_mem_nil
    · exact absurd hi List.not_mem_nil

theorem isChange_of_mem_items {c : Correlation} : ∀ i ∈ c.items, i.2.kind.isChange := by
  intro i hi
  obtain ⟨e, -, hi⟩ := List.mem_flatMap.mp hi
  exact isChange_of_mem_itemsOf i hi

theorem isChange_of_mem_fieldChanges {c : Correlation} :
    ∀ f ∈ c.fieldChanges, f.kind.isChange := by
  intro f hf
  obtain ⟨e, -, hf⟩ := List.mem_flatMap.mp hf
  dsimp only at hf
  split at hf
  · exact (List.mem_filter.mp hf).2
  · exact absurd hf List.not_mem_nil

/-- Nothing that the groups contribute is left out of the record. -/
theorem record?_eq (c : Correlation) : c.record?
    = if c.fieldChanges.isEmpty && c.items.isEmpty then none
      else some ⟨c.fieldChanges, c.collectionChanges⟩ :=
  ChangeRecord.of?_foldl_pushTo isChange_of_mem_fieldChanges isChange_of_mem_items

/-! ### Members that hold a change -/

theorem mem_changed_of_perm (h : fs.Perm gs) (ho : o ∈ (ofFindings fs).changed) :
    o ∈ (ofFindings gs).changed := by
  rw [mem_changed_ofFindings] at ho ⊢
  have habout : ∀ f, f ∈ about o fs ↔ f ∈ about o gs := fun f => (about_perm h o).mem_iff
  simpa only [habout, h.mem_iff] using ho

theorem HoldsChange.mono {c d : Correlation} (hchanged : ∀ o ∈ c.changed, o ∈ d.changed)
    (hparent : ∀ o, c.parent? o = d.parent? o) (h : c.HoldsChange o) : d.HoldsChange o := by
  induction h with
  | changed h => exact .changed (hchanged _ h)
  | parent _ hp hroot ih => exact .parent ih (hparent _ ▸ hp) hroot

/-- The same members hold a change. -/
theorem contains_dirty_of_perm (h : fs.Perm gs) (hlast : ∀ o, lastMatch? fs o = lastMatch? gs o)
    (o : Owner) : (ofFindings fs).dirty.contains o = (ofFindings gs).dirty.contains o := by
  have hparent : ∀ o, (ofFindings fs).parent? o = (ofFindings gs).parent? o := by
    intro o
    rw [parent?_ofFindings, parent?_ofFindings, hlast]
  rw [Bool.eq_iff_iff, List.contains_iff_mem, List.contains_iff_mem, mem_dirty_iff, mem_dirty_iff]
  constructor
  · exact HoldsChange.mono (fun _ => mem_changed_of_perm h) hparent
  · exact HoldsChange.mono (fun _ => mem_changed_of_perm h.symm) fun o => (hparent o).symm

/-! ### The record -/

theorem fieldChanges_perm (h : fs.Perm gs) :
    (ofFindings fs).fieldChanges.Perm (ofFindings gs).fieldChanges := by
  rw [fieldChanges, fieldChanges, groups_ofFindings, groups_ofFindings, List.flatMap_map,
    List.flatMap_map]
  refine (List.perm_eraseDups (h.map owner)).flatMap fun o _ => ?_
  dsimp only
  split
  · exact ((about_perm h o).filterMap change?).filter _
  · exact .refl _

/-- What an object contributes depends on the order of the findings about it only in its order. -/
theorem itemsOf_perm (h : fs.Perm gs) (hlast : ∀ o, lastMatch? fs o = lastMatch? gs o) (o : Owner) :
    (itemsOf (ofFindings fs).dirty o (groupOf fs o)).Perm
      (itemsOf (ofFindings gs).dirty o (groupOf gs o)) := by
  -- the order leaves the case of the object as it is, and in each case what it contributes
  have hmember : (groupOf fs o).isMembership = (groupOf gs o).isMembership := by
    rw [Bool.eq_iff_iff, isMembership_groupOf, isMembership_groupOf]
    simp only [(about_perm h o).mem_iff]
  have hmatched : (groupOf fs o).matched = (groupOf gs o).matched := hlast o
  rw [itemsOf, itemsOf, hmember, hmatched, contains_dirty_of_perm h hlast]
  split
  · exact (((about_perm h o).filterMap membership?).filter _).filterMap _
  · exact .refl _

/-- **Findings in another order give records that are alike**, if each object is matched last in the
same way. -/
theorem rel_record?_of_perm (h : fs.Perm gs) (hlast : ∀ o, lastMatch? fs o = lastMatch? gs o) :
    Option.Rel ChangeRecord.Alike (ofFindings fs).record? (ofFindings gs).record? := by
  have hitems : (ofFindings fs).items.Perm (ofFindings gs).items := by
    rw [items, items, flatMap_itemsOf, flatMap_itemsOf]
    exact (List.perm_eraseDups (h.map owner)).flatMap fun o _ => itemsOf_perm h hlast o
  exact ChangeRecord.rel_of?_of_perm isChange_of_mem_fieldChanges isChange_of_mem_items
    (fieldChanges_perm h) hitems

end Correlation

end SnapshotDiff
