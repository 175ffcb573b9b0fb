import Mathlib.Data.List.Basic
import SnapshotDiff.Correlation
import SnapshotDiff.Proofs.Change.Swap

/-!
# Correlations of findings back

Grouping findings and reading a record from the groups never compares the old side with the new one:
the findings back, one by one in the same order, have the groups back and give the record back.

## Main definitions

* `Finding.swap`, `Group.swap`, `Correlation.swap` — findings, groups and correlations back.

## Main results

* `Correlation.ofFindings_swap` — the groups of the findings back.
* `Correlation.record?_swap` — the record of the groups back.
-/

namespace SnapshotDiff

namespace Finding

/-- The finding back. -/
def swap : Finding → Finding
  | field o change => field o change.swap
  | member site o kind value => member site o kind.swap value
  | matched site o old new => matched site o new old

@[simp] theorem owner_swap (f : Finding) : f.swap.owner = f.owner := by cases f <;> rfl

end Finding

/-- What came has left, and what left has come. -/
def Membership.swap (m : Membership) : Membership := ⟨m.site, m.kind.swap, m.value⟩

/-- The match with its sides exchanged. -/
def Match.swap (m : Match) : Match := ⟨m.site, m.new, m.old⟩

namespace Group

/-- The group of the findings back. -/
def swap (g : Group) : Group where
  firstSeen := g.firstSeen
  fields := g.fields.map FieldChange.swap
  memberships := g.memberships.map Membership.swap
  matched := g.matched.map Match.swap

theorem add_swap (g : Group) (f : Finding) : (g.add f).swap = g.swap.add f.swap := by
  cases f with
  | field o change => simp [add, swap, Finding.swap]
  | member site o kind value => simp [add, swap, Finding.swap, Membership.swap]
  | matched site o old new => rfl

@[simp] theorem isMembership_swap (g : Group) : g.swap.isMembership = g.isMembership := by
  simp [isMembership, swap]

@[simp] theorem hasFieldChanges_swap (g : Group) : g.swap.hasFieldChanges = g.hasFieldChanges := by
  simp [hasFieldChanges, swap, Function.comp_def, FieldChange.swap]

end Group

namespace Correlation

/-! ### Groups -/

/-- The correlation of the findings back. -/
def swap (c : Correlation) : Correlation := ⟨c.groups.map fun e => (e.1, e.2.swap)⟩

theorem map_swap_add (i : Nat) (f : Finding) (gs : List (Owner × Group)) :
    (add i f gs).map (fun e => (e.1, e.2.swap))
      = add i f.swap (gs.map fun e => (e.1, e.2.swap)) := by
  induction gs with
  | nil =>
    rw [add, List.map_cons, List.map_nil, Group.add_swap, add, Finding.owner_swap]
    rfl
  | cons e gs ih =>
    obtain ⟨o, g⟩ := e
    rw [add, List.map_cons, add, Finding.owner_swap]
    split
    · rw [List.map_cons, Group.add_swap]
    · rw [List.map_cons, ih]

/-- **The groups of the findings back** are the groups of the findings, each of them back. -/
theorem ofFindings_swap (fs : List Finding) :
    ofFindings (fs.map Finding.swap) = (ofFindings fs).swap := by
  -- the groups made so far change with every finding, so the induction is over all of them
  have hall : ∀ (i : Nat) (gs : List (Owner × Group)),
      addAll (gs.map fun e => (e.1, e.2.swap)) i (fs.map Finding.swap)
        = (addAll gs i fs).map fun e => (e.1, e.2.swap) := by
    induction fs with
    | nil => exact fun i gs => rfl
    | cons f fs ih =>
      intro i gs
      rw [List.map_cons, addAll, addAll, ← map_swap_add, ih]
  exact congrArg Correlation.mk (hall 0 [])

theorem get?_swap (c : Correlation) (o : Owner) : c.swap.get? o = (c.get? o).map Group.swap := by
  rw [get?, get?, swap]
  induction c.groups with
  | nil => rfl
  | cons e gs ih =>
    obtain ⟨p, g⟩ := e
    rw [List.map_cons, List.lookup_cons, List.lookup_cons, ih]
    cases o == p <;> rfl

@[simp] theorem parent?_swap (c : Correlation) (o : Owner) : c.swap.parent? o = c.parent? o := by
  rw [parent?, parent?, get?_swap]
  cases c.get? o with
  | none => rfl
  | some g => cases hm : g.matched <;> simp [Group.swap, Match.swap, hm]

@[simp] theorem size_swap (c : Correlation) : c.swap.size = c.size := List.length_map _

/-! ### Members that hold a change -/

@[simp] theorem changed_swap (c : Correlation) : c.swap.changed = c.changed := by
  -- what came or left stays in the collections that it came to or left
  have hsites : ∀ g : Group, g.swap.memberships.map (·.site.owner)
      = g.memberships.map (·.site.owner) := by
    intro g
    rw [Group.swap, List.map_map]
    rfl
  rw [changed, changed, swap, List.flatMap_map]
  refine List.flatMap_congr fun e _ => ?_
  simp only [Group.isMembership_swap, Group.hasFieldChanges_swap, hsites]

@[simp] theorem addParents_swap (c : Correlation) (times : Nat) (os : List Owner) :
    c.swap.addParents times os = c.addParents times os := by
  induction times generalizing os with
  | zero => rfl
  | succ times ih =>
    have hparents : c.swap.newParents os = c.newParents os := by
      rw [newParents, newParents, List.filterMap_congr fun o _ => c.parent?_swap o]
    rw [addParents, addParents, hparents]
    split
    · rfl
    · exact ih _

@[simp] theorem dirty_swap (c : Correlation) : c.swap.dirty = c.dirty := by
  rw [dirty, dirty, size_swap, changed_swap, addParents_swap]

/-! ### The record -/

theorem fieldChanges_swap (c : Correlation) :
    c.swap.fieldChanges = c.fieldChanges.map FieldChange.swap := by
  rw [fieldChanges, fieldChanges, swap, List.flatMap_map, List.map_flatMap]
  refine List.flatMap_congr fun e _ => ?_
  dsimp only
  split
  · rw [Group.swap, List.filter_map]
    exact congrArg _ (List.filter_congr fun f _ => f.kind.isChange_swap)
  · rfl

theorem itemOf?_swap (m : Membership) : itemOf? m.swap = (itemOf? m).map ItemChange.swap := by
  obtain ⟨site, kind, value⟩ := m
  cases kind <;> rfl

theorem itemsOf_swap (dirty : List Owner) (o : Owner) (g : Group) :
    itemsOf dirty o g.swap = (itemsOf dirty o g).map fun i => (i.1, i.2.swap) := by
  rw [itemsOf, itemsOf, Group.isMembership_swap]
  split
  · rw [Group.swap, List.filter_map, List.filterMap_map, List.map_filterMap]
    refine List.filterMap_congr fun m _ => ?_
    simp only [Function.comp_apply, itemOf?_swap, Option.map_map]
    rfl
  · cases hm : g.matched with
    | none => simp [Group.swap, hm]
    | some m =>
      simp only [Group.swap, hm, Option.map_some, Match.swap]
      split <;> rfl

theorem collectionChanges_swap (c : Correlation) :
    c.swap.collectionChanges = c.collectionChanges.map CollectionChange.swap := by
  have hitems : c.swap.groups.flatMap (fun e => itemsOf c.dirty e.1 e.2)
      = (c.groups.flatMap fun e => itemsOf c.dirty e.1 e.2).map fun i => (i.1, i.2.swap) := by
    rw [swap, List.flatMap_map, List.map_flatMap]
    exact List.flatMap_congr fun e _ => itemsOf_swap c.dirty e.1 e.2
  calc c.swap.collectionChanges
      = (c.swap.groups.flatMap fun e => itemsOf c.dirty e.1 e.2).foldl
          (fun cs i => CollectionChange.pushTo i.1 i.2 cs) [] := by
        rw [collectionChanges, dirty_swap]
    _ = c.collectionChanges.map CollectionChange.swap := by
      rw [hitems, collectionChanges, CollectionChange.foldl_pushTo_swap]
      rfl

/-- **The record of the groups back** is the record back. -/
theorem record?_swap (c : Correlation) : c.swap.record? = c.record?.map ChangeRecord.swap := by
  rw [record?, record?, ChangeRecord.of?_swap, fieldChanges_swap, collectionChanges_swap]

end Correlation

end SnapshotDiff
