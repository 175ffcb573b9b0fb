import SnapshotDiff.Correlation
import SnapshotDiff.Proofs.List.Distinct
import SnapshotDiff.Proofs.Table

/-!
# Members that hold a change

`Correlation.dirty` climbs from the members at which a change was found to the owners of the
collections that they were matched in, round by round, for as many rounds as there are groups.  That
is enough: a round that finds anything finds an owner not found before, and all owners that can be
found are parents of groups.

## Main definitions

* `Correlation.HoldsChange` — a change was found at the member or somewhere below it.

## Main results

* `Correlation.mem_dirty_iff` — the members found by climbing are those that hold a change.
-/

namespace SnapshotDiff

namespace Correlation

variable {c : Correlation} {o p : Owner} {os : List Owner}

/-- A change was found at the member, or at one that was matched in one of its collections, and so
on. -/
inductive HoldsChange (c : Correlation) : Owner → Prop
  | changed {o : Owner} (h : o ∈ c.changed) : HoldsChange c o
  | parent {o p : Owner} (h : HoldsChange c o) (hp : c.parent? o = some p)
    (hroot : p.isRoot = false) : HoldsChange c p

theorem mem_newParents : p ∈ c.newParents os ↔
    (∃ o ∈ os, c.parent? o = some p) ∧ p.isRoot = false ∧ p ∉ os := by
  rw [newParents, List.mem_eraseDups, List.mem_filter, List.mem_filterMap]
  simp

/-- Climbing leaves out nothing that it started with. -/
theorem subset_addParents (times : Nat) : ∀ os : List Owner, os ⊆ c.addParents times os := by
  induction times with
  | zero => exact fun os => List.Subset.refl os
  | succ times ih =>
    intro os
    unfold addParents
    split
    · exact List.Subset.refl os
    · exact fun o ho => ih _ (List.mem_append_right _ ho)

/-- Whatever climbing finds holds a change if all that it started with did. -/
theorem holdsChange_of_mem_addParents {times : Nat} :
    ∀ {os : List Owner}, (∀ o ∈ os, c.HoldsChange o) →
      ∀ o ∈ c.addParents times os, c.HoldsChange o := by
  induction times with
  | zero => exact fun h => h
  | succ times ih =>
    intro os h
    unfold addParents
    split
    · exact h
    · refine ih fun p hp => ?_
      rcases List.mem_append.mp hp with hp | hp
      · obtain ⟨⟨o, ho, hop⟩, hroot, -⟩ := mem_newParents.mp hp
        exact .parent (h o ho) hop hroot
      · exact h p hp

/-! ### The number of rounds -/

/-- The parents of groups. -/
def parents (c : Correlation) : List Owner := (c.groups.map Prod.fst).filterMap c.parent?

theorem mem_parents (h : c.parent? o = some p) : p ∈ c.parents := by
  refine List.mem_filterMap.mpr ⟨o, ?_, h⟩
  rw [parent?, Option.map_eq_some_iff] at h
  obtain ⟨m, hm, -⟩ := h
  obtain ⟨g, hg, -⟩ := Option.bind_eq_some_iff.mp hm
  unfold get? at hg
  exact List.mem_map.mpr ⟨(o, g), List.mem_of_lookup_eq_some hg, rfl⟩

/-- The parents of groups that have not been found yet. -/
def missing (c : Correlation) (os : List Owner) : List Owner :=
  c.parents.filter fun p => !os.contains p

theorem length_missing_le (c : Correlation) (os : List Owner) : (c.missing os).length ≤ c.size := by
  calc (c.missing os).length ≤ c.parents.length := List.length_filter_le _ _
    _ ≤ (c.groups.map Prod.fst).length := List.length_filterMap_le _ _
    _ = c.size := List.length_map _

/-- Every parent that is found is one fewer that is missing. -/
theorem length_missing_append_lt {ps : List Owner} (hop : c.parent? o = some p) (hnot : p ∉ os)
    (hps : p ∈ ps) : (c.missing (ps ++ os)).length < (c.missing os).length := by
  have hsplit : c.missing (ps ++ os) = (c.missing os).filter fun q => !ps.contains q := by
    rw [missing, missing, List.filter_filter]
    refine List.filter_congr fun q _ => ?_
    simp
  rw [hsplit]
  refine List.length_filter_lt_length_iff_exists.mpr ⟨p, ?_, by simp [hps]⟩
  exact List.mem_filter.mpr ⟨mem_parents hop, by simp [hnot]⟩

/-- Once there are as many rounds as missing parents, nothing is left to be found. -/
theorem parent_mem_addParents {times : Nat} : ∀ {os : List Owner},
    (c.missing os).length ≤ times → ∀ {o p : Owner}, o ∈ c.addParents times os →
      c.parent? o = some p → p.isRoot = false → p ∈ c.addParents times os := by
  induction times with
  | zero =>
    intro os hlen o p ho hop hroot
    -- without a missing parent every parent was found before
    have hnone : c.missing os = [] := List.eq_nil_of_length_eq_zero (Nat.le_zero.mp hlen)
    by_contra hp
    have hmem : p ∈ c.missing os := by
      refine List.mem_filter.mpr ⟨mem_parents hop, ?_⟩
      unfold addParents at hp
      simp [hp]
    rw [hnone] at hmem
    exact List.not_mem_nil hmem
  | succ times ih =>
    intro os hlen o p ho hop hroot
    unfold addParents at ho ⊢
    split at ho
    · next hnil =>
      by_contra hp
      have hmem : p ∈ c.newParents os := mem_newParents.mpr ⟨⟨o, ho, hop⟩, hroot, hp⟩
      rw [hnil] at hmem
      exact List.not_mem_nil hmem
    · next hne =>
      obtain ⟨q, hq⟩ := List.exists_mem_of_ne_nil _ hne
      -- this round found a parent, so that the rounds left still are enough
      obtain ⟨⟨_, -, hparent⟩, -, hnot⟩ := mem_newParents.mp hq
      have hlt := length_missing_append_lt hparent hnot hq
      exact ih (by omega) ho hop hroot

/-- **The members found by climbing are those that hold a change.** -/
theorem mem_dirty_iff : o ∈ c.dirty ↔ c.HoldsChange o := by
  unfold dirty
  constructor
  · refine holdsChange_of_mem_addParents (fun p hp => ?_) o
    exact .changed (List.mem_eraseDups.mp hp)
  · intro h
    induction h with
    | changed h => exact subset_addParents _ _ (List.mem_eraseDups.mpr h)
    | parent _ hp hroot ih =>
      exact parent_mem_addParents (c.length_missing_le _) ih hp hroot

end Correlation

end SnapshotDiff
