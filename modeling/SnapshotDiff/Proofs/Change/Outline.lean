import SnapshotDiff.Proofs.Change.Alike
import SnapshotDiff.Proofs.Change.Swap

/-!
# Outlines of records

The outline of a record leaves out the values: which fields came, left or changed, which collections
changed, and how many of their members came, left or changed.

## Main definitions

* `FieldChange.outline`, `CollectionChange.outline` — what is left of single changes.
* `ChangeRecord.SameOutline` — records that differ in values and in order only.

## Main results

* `ChangeRecord.SameOutline.swap`, `ChangeRecord.Alike.sameOutline` — records back and records that
  are alike have the outlines that they should have.
-/

namespace SnapshotDiff

/-- The kind and the path of the change. -/
def FieldChange.outline (c : FieldChange) : ChangeKind × String := (c.kind, c.path)

namespace CollectionChange

/-- The number of changes of a kind. -/
def count (c : CollectionChange) (kind : ChangeKind) : Nat := c.items.countP (·.kind = kind)

/-- The name of the collection with the number of changes of each kind. -/
def outline (c : CollectionChange) : String × (ChangeKind → Nat) := (c.name, c.count)

end CollectionChange

namespace ItemChange

/-- Changes that are alike are as many of every kind. -/
theorem Alike.countP_eq {is js : List ItemChange} (h : Alike is js) (kind : ChangeKind) :
    is.countP (·.kind = kind) = js.countP (·.kind = kind) := by
  -- the kind of a change is that of its class, so it can be counted on the classes
  have hclass : ∀ i j : ItemChange, equality.r i j →
      decide (i.kind = kind) = decide (j.kind = kind) := by
    intro i j hij
    obtain ⟨hkind, -⟩ := same_iff.mp hij
    rw [hkind]
  have hcount : ∀ ks : List ItemChange, ks.countP (·.kind = kind)
      = (ks.map (Quotient.mk equality)).countP (Quotient.lift (·.kind = kind) hclass) := by
    intro ks
    rw [List.countP_map]
    rfl
  rw [hcount, hcount]
  exact (alike_iff_perm.mp h).countP_eq _

theorem countP_swap (is : List ItemChange) (kind : ChangeKind) :
    (is.map swap).countP (·.kind = kind) = is.countP (·.kind = kind.swap) := by
  rw [List.countP_map]
  refine List.countP_congr fun i _ => ?_
  have hkind : i.kind.swap = kind ↔ i.kind = kind.swap := by
    rw [← ChangeKind.swap_inj, ChangeKind.swap_swap]
  show decide (i.kind.swap = kind) = true ↔ decide (i.kind = kind.swap) = true
  rw [decide_eq_true_iff, decide_eq_true_iff]
  exact hkind

end ItemChange

namespace ChangeRecord

/-- The record without changes. -/
def nothing : ChangeRecord := ⟨[], []⟩

/-- The records have field changes of the same kinds at the same paths, and collections of the same
names with as many changes of each kind. -/
structure SameOutline (r s : ChangeRecord) : Prop where
  fields : (r.fields.map FieldChange.outline).Perm (s.fields.map FieldChange.outline)
  collections : (r.collections.map CollectionChange.outline).Perm
    (s.collections.map CollectionChange.outline)

namespace SameOutline

variable {r s t : ChangeRecord}

theorem refl (r : ChangeRecord) : r.SameOutline r := ⟨.refl _, .refl _⟩

theorem symm (h : r.SameOutline s) : s.SameOutline r := ⟨h.fields.symm, h.collections.symm⟩

theorem trans (h : r.SameOutline s) (h' : s.SameOutline t) : r.SameOutline t :=
  ⟨h.fields.trans h'.fields, h.collections.trans h'.collections⟩

/-- Nothing else has the outline of no change. -/
theorem eq_nothing (h : r.SameOutline nothing) : r = nothing := by
  obtain ⟨fields, collections⟩ := r
  have hfields := List.map_eq_nil_iff.mp h.fields.eq_nil
  have hcollections := List.map_eq_nil_iff.mp h.collections.eq_nil
  dsimp only at hfields hcollections
  rw [hfields, hcollections]
  rfl

/-- The outline of the record back is the outline back. -/
theorem swap (h : r.SameOutline s) : r.swap.SameOutline s.swap where
  fields := by
    have hfields : ∀ r : ChangeRecord, r.swap.fields.map FieldChange.outline
        = (r.fields.map FieldChange.outline).map fun p => (p.1.swap, p.2) := by
      intro r
      rw [List.map_map, ChangeRecord.swap, List.map_map]
      rfl
    rw [hfields, hfields]
    exact h.fields.map _
  collections := by
    have hcount : ∀ c : CollectionChange, c.swap.count = fun kind => c.count kind.swap :=
      fun c => funext fun kind => ItemChange.countP_swap c.items kind
    have hcollections : ∀ r : ChangeRecord, r.swap.collections.map CollectionChange.outline
        = (r.collections.map CollectionChange.outline).map
            fun p => (p.1, fun kind => p.2 (ChangeKind.swap kind)) := by
      intro r
      rw [List.map_map, ChangeRecord.swap, List.map_map]
      exact List.map_congr_left fun c _ => congrArg (Prod.mk c.name) (hcount c)
    rw [hcollections, hcollections]
    exact h.collections.map _

end SameOutline

/-- Records that are alike have one outline. -/
theorem Alike.sameOutline {r s : ChangeRecord} (h : r.Alike s) : r.SameOutline s where
  fields := h.fields.map _
  collections := by
    -- collections of different names have different outlines, so only membership matters
    have hnodup : ∀ {cs : List CollectionChange}, (cs.map (·.name)).Nodup →
        (cs.map CollectionChange.outline).Nodup := by
      intro cs hcs
      apply List.Nodup.of_map Prod.fst
      rw [List.map_map]
      exact hcs
    have hcounts : ∀ c ∈ r.collections, ∀ d ∈ s.collections, c.name = d.name →
        c.outline = d.outline := by
      intro c hc d hd hname
      have hcount : c.count = d.count := funext fun kind => (h.items c hc d hd hname).countP_eq kind
      exact Prod.ext hname hcount
    refine (List.perm_ext_iff_of_nodup (hnodup h.distinct)
      (hnodup (h.names.nodup_iff.mp h.distinct))).mpr fun p => ?_
    constructor
    · intro hp
      obtain ⟨c, hc, rfl⟩ := List.mem_map.mp hp
      obtain ⟨d, hd, hname⟩ := List.mem_map.mp (h.names.mem_iff.mp (List.mem_map_of_mem hc))
      rw [hcounts c hc d hd hname.symm]
      exact List.mem_map_of_mem hd
    · intro hp
      obtain ⟨d, hd, rfl⟩ := List.mem_map.mp hp
      obtain ⟨c, hc, hname⟩ := List.mem_map.mp (h.names.mem_iff.mpr (List.mem_map_of_mem hd))
      rw [← hcounts c hc d hd hname]
      exact List.mem_map_of_mem hc

/-- Where there is no record there is nothing to tell. -/
theorem sameOutline_of_rel {r s : Option ChangeRecord} (h : Option.Rel Alike r s) :
    (r.getD nothing).SameOutline (s.getD nothing) := by
  cases h with
  | some h => exact h.sameOutline
  | none => exact .refl _

end ChangeRecord

end SnapshotDiff
