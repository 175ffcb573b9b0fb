import Mathlib.Data.Multiset.ZeroCons
import Mathlib.Data.Multiset.MapFold
import SnapshotDiff.Proofs.Change.Items
import SnapshotDiff.Proofs.Json.Same

/-!
# Records that tell the same

The order of a record says nothing about what has changed, and of two equal item changes it does not
matter which one is told.  Records are alike if they have the same field changes and the same
collections, and each collection has the same item changes, all of that in any order and the last up
to equality of values.

## Main definitions

* `ItemChange.Alike` — the same item changes, up to order and equality of values.
* `ChangeRecord.Alike` — records that tell the same.

## Main results

* `ItemChange.alike_foldl_push` — changes pushed in another order are alike.
* `ChangeRecord.rel_of?_of_perm` — records put together in another order are alike.
-/

namespace SnapshotDiff

namespace ItemChange

variable {i j k : ItemChange} {is js : List ItemChange}

theorem same_iff :
    i.same j ↔ i.kind = j.kind ∧ Json.same? i.old j.old ∧ Json.same? i.new j.new := by
  rw [same, Bool.and_eq_true, Bool.and_eq_true, beq_iff_eq, and_assoc]

theorem same_refl (i : ItemChange) : i.same i :=
  same_iff.mpr ⟨rfl, Json.same?_refl _, Json.same?_refl _⟩

theorem same_symm (h : i.same j) : j.same i := by
  obtain ⟨hkind, hold, hnew⟩ := same_iff.mp h
  exact same_iff.mpr ⟨hkind.symm, Json.same?_symm hold, Json.same?_symm hnew⟩

theorem same_trans (hij : i.same j) (hjk : j.same k) : i.same k := by
  obtain ⟨hkind, hold, hnew⟩ := same_iff.mp hij
  obtain ⟨hkind', hold', hnew'⟩ := same_iff.mp hjk
  exact same_iff.mpr
    ⟨hkind.trans hkind', Json.same?_trans hold hold', Json.same?_trans hnew hnew'⟩

/-- Equality of kinds and values, as an equivalence. -/
def equality : Setoid ItemChange where
  r i j := i.same j
  iseqv := ⟨same_refl, same_symm, same_trans⟩

/-- The same item changes, up to their order and equality of values. -/
def Alike (is js : List ItemChange) : Prop :=
  Multiset.Rel (fun i j => i.same j) (is : Multiset ItemChange) (js : Multiset ItemChange)

/-- Item changes are alike if their classes under equality of values are the same. -/
theorem alike_iff_perm : Alike is js
    ↔ (is.map (Quotient.mk equality)).Perm (js.map (Quotient.mk equality)) := by
  have hclass : ∀ i j : ItemChange,
      Quotient.mk equality i = Quotient.mk equality j ↔ i.same j := fun _ _ => Quotient.eq
  rw [← Multiset.coe_eq_coe, ← Multiset.map_coe, ← Multiset.map_coe, ← Multiset.rel_eq,
    Multiset.rel_map]
  simp only [hclass]
  rfl

/-- Changes of which no two are equal are alike if each is equal to one on the other side. -/
theorem alike_of_pairwise (his : is.Pairwise fun i j => ¬i.same j)
    (hjs : js.Pairwise fun i j => ¬i.same j) (hleft : ∀ i ∈ is, ∃ j ∈ js, j.same i)
    (hright : ∀ j ∈ js, ∃ i ∈ is, i.same j) : Alike is js := by
  -- the classes of such changes are distinct, so lists of classes are compared as sets
  have hnodup : ∀ {ks : List ItemChange}, ks.Pairwise (fun i j => ¬i.same j) →
      (ks.map (Quotient.mk equality)).Nodup := by
    intro ks hks
    rw [List.nodup_iff_pairwise_ne, List.pairwise_map]
    exact hks.imp fun hij heq => hij (Quotient.exact heq)
  rw [alike_iff_perm]
  refine (List.perm_ext_iff_of_nodup (hnodup his) (hnodup hjs)).mpr fun q => ?_
  constructor
  · intro hq
    obtain ⟨i, hi, rfl⟩ := List.mem_map.mp hq
    obtain ⟨j, hj, hji⟩ := hleft i hi
    exact List.mem_map.mpr ⟨j, hj, Quotient.sound hji⟩
  · intro hq
    obtain ⟨j, hj, rfl⟩ := List.mem_map.mp hq
    obtain ⟨i, hi, hij⟩ := hright j hj
    exact List.mem_map.mpr ⟨i, hi, Quotient.sound hij⟩

end ItemChange

namespace CollectionChange

variable {c : CollectionChange} {items : List ItemChange}

/-- No change is told twice. -/
theorem pairwise_push (item : ItemChange) (h : c.items.Pairwise fun i j => ¬i.same j) :
    (c.push item).items.Pairwise fun i j => ¬i.same j := by
  unfold push
  split
  · exact h
  · next hnew =>
    refine List.pairwise_append.mpr ⟨h, List.pairwise_singleton _ _, ?_⟩
    intro i hi j hj hsame
    obtain rfl := List.mem_singleton.mp hj
    exact hnew (List.any_eq_true.mpr ⟨i, hi, hsame⟩)

theorem pairwise_foldl_push (h : c.items.Pairwise fun i j => ¬i.same j) :
    (items.foldl push c).items.Pairwise fun i j => ¬i.same j := by
  induction items generalizing c with
  | nil => exact h
  | cons i items ih => exact ih (pairwise_push i h)

/-- Changes of which no two are equal are all told. -/
theorem items_foldl_push (items : List ItemChange) : ∀ c : CollectionChange,
    (c.items ++ items).Pairwise (fun i j => ¬i.same j) →
      (items.foldl push c).items = c.items ++ items := by
  induction items with
  | nil => exact fun c _ => (List.append_nil _).symm
  | cons i items ih =>
    intro c h
    -- the next change is not equal to one that was told
    have hnew : ¬c.items.any (·.same i) := by
      intro hany
      obtain ⟨j, hj, hji⟩ := List.any_eq_true.mp hany
      exact (List.pairwise_append.mp h).2.2 j hj i List.mem_cons_self hji
    have hpush : (c.push i).items = c.items ++ [i] := by rw [push, if_neg hnew]
    have happend : c.items ++ i :: items = (c.push i).items ++ items := by
      rw [hpush, List.append_assoc, List.singleton_append]
    rw [List.foldl_cons, happend]
    rw [happend] at h
    exact ih _ h

theorem foldl_push_eq {items : List ItemChange} (c : CollectionChange)
    (h : (c.items ++ items).Pairwise fun i j => ¬i.same j) :
    items.foldl push c = ⟨c.name, c.items ++ items⟩ := by
  rw [← items_foldl_push items c h, ← name_foldl_push items c]

/-- What is told stays told. -/
theorem items_subset_push (item : ItemChange) : c.items ⊆ (c.push item).items := by
  unfold push
  split
  · exact List.Subset.refl _
  · exact List.subset_append_left _ _

theorem items_subset_foldl_push (items : List ItemChange) :
    ∀ c : CollectionChange, c.items ⊆ (items.foldl push c).items := by
  induction items with
  | nil => exact fun c => List.Subset.refl _
  | cons i items ih => exact fun c => List.Subset.trans (items_subset_push i) (ih _)

/-- Every change is told, or one that is equal to it. -/
theorem exists_mem_push (item : ItemChange) : ∃ j ∈ (c.push item).items, j.same item := by
  unfold push
  split
  · next hsame =>
    obtain ⟨j, hj, hji⟩ := List.any_eq_true.mp hsame
    exact ⟨j, hj, hji⟩
  · exact ⟨item, List.mem_append_right _ (List.mem_singleton_self _), item.same_refl⟩

theorem exists_mem_foldl_push {i : ItemChange} (hi : i ∈ items) :
    ∃ j ∈ (items.foldl push c).items, j.same i := by
  induction items generalizing c with
  | nil => exact absurd hi List.not_mem_nil
  | cons k items ih =>
    rcases List.mem_cons.mp hi with rfl | hi
    · obtain ⟨j, hj, hji⟩ := exists_mem_push (c := c) i
      exact ⟨j, items_subset_foldl_push items _ hj, hji⟩
    · exact ih hi

/-- **Changes that are pushed in another order are alike.** -/
theorem alike_foldl_push {is js : List ItemChange} (h : is.Perm js) (name : String) :
    ItemChange.Alike (is.foldl push ⟨name, []⟩).items (js.foldl push ⟨name, []⟩).items := by
  -- which of several equal changes is told depends on the order, but one of them is
  have hcover : ∀ {is js : List ItemChange}, is.Perm js →
      ∀ i ∈ (is.foldl push ⟨name, []⟩).items,
        ∃ j ∈ (js.foldl push ⟨name, []⟩).items, j.same i := by
    intro is js hperm i hi
    rcases mem_items_foldl_push hi with hi | hi
    · exact absurd hi List.not_mem_nil
    · exact exists_mem_foldl_push (hperm.mem_iff.mp hi)
  exact ItemChange.alike_of_pairwise (pairwise_foldl_push List.Pairwise.nil)
    (pairwise_foldl_push List.Pairwise.nil) (hcover h) (hcover h.symm)

theorem alike_ofItems {items items' : List (String × ItemChange)} (h : items.Perm items')
    (name : String) : ItemChange.Alike (ofItems items name).items (ofItems items' name).items :=
  alike_foldl_push ((h.filter _).map _) name

end CollectionChange

namespace ChangeRecord

/-- The records tell the same: equal field changes, and collections of equal names with item changes
that are alike. -/
structure Alike (r s : ChangeRecord) : Prop where
  fields : r.fields.Perm s.fields
  distinct : (r.collections.map (·.name)).Nodup
  names : (r.collections.map (·.name)).Perm (s.collections.map (·.name))
  items : ∀ c ∈ r.collections, ∀ d ∈ s.collections, c.name = d.name →
    ItemChange.Alike c.items d.items

variable {fields fields' : List FieldChange} {items items' : List (String × ItemChange)}

theorem map_name_foldl_pushTo (items : List (String × ItemChange)) :
    (items.foldl (fun cs i => CollectionChange.pushTo i.1 i.2 cs) []).map (·.name)
      = (items.map Prod.fst).eraseDups := by
  rw [CollectionChange.foldl_pushTo_nil, List.map_map]
  exact (List.map_congr_left fun n _ => CollectionChange.name_ofItems items n).trans (List.map_id _)

/-- The order of the changes matters to the order in the record only. -/
theorem alike_of_perm (hfields : fields.Perm fields') (hitems : items.Perm items') :
    Alike ⟨fields, items.foldl (fun cs i => CollectionChange.pushTo i.1 i.2 cs) []⟩
      ⟨fields', items'.foldl (fun cs i => CollectionChange.pushTo i.1 i.2 cs) []⟩ where
  fields := hfields
  distinct := by
    rw [map_name_foldl_pushTo]
    exact List.nodup_eraseDups _
  names := by
    rw [map_name_foldl_pushTo, map_name_foldl_pushTo]
    exact List.perm_eraseDups (hitems.map _)
  items c hc d hd hname := by
    rw [CollectionChange.foldl_pushTo_nil] at hc hd
    obtain ⟨n, -, rfl⟩ := List.mem_map.mp hc
    obtain ⟨m, -, rfl⟩ := List.mem_map.mp hd
    rw [CollectionChange.name_ofItems, CollectionChange.name_ofItems] at hname
    subst hname
    exact CollectionChange.alike_ofItems hitems n

/-- The record of changes that all say something. -/
theorem of?_foldl_pushTo (hfields : ∀ f ∈ fields, f.kind.isChange)
    (hitems : ∀ i ∈ items, i.2.kind.isChange) :
    of? fields (items.foldl (fun cs i => CollectionChange.pushTo i.1 i.2 cs) [])
      = if fields.isEmpty && items.isEmpty then none
        else some ⟨fields, items.foldl (fun cs i => CollectionChange.pushTo i.1 i.2 cs) []⟩ := by
  -- every change opens a collection or goes into one
  have hempty : (items.foldl (fun cs i => CollectionChange.pushTo i.1 i.2 cs) []).isEmpty
      = items.isEmpty := by
    rw [← List.isEmpty_map (f := (·.name)), map_name_foldl_pushTo]
    cases items with
    | nil => rfl
    | cons i items => rw [List.map_cons, List.eraseDups_cons]; rfl
  rw [of?_eq hfields, hempty]
  intro c hc
  rw [CollectionChange.foldl_pushTo_nil] at hc
  obtain ⟨n, hn, rfl⟩ := List.mem_map.mp hc
  obtain ⟨i, hi, rfl⟩ := List.mem_map.mp (List.mem_eraseDups.mp hn)
  have hmem : i.2 ∈ (items.filter (·.1 = i.1)).map Prod.snd :=
    List.mem_map_of_mem (List.mem_filter.mpr ⟨hi, decide_eq_true rfl⟩)
  refine ⟨CollectionChange.items_ne_nil_of_ne_nil (List.ne_nil_of_mem hmem) _, fun j hj => ?_⟩
  rcases CollectionChange.mem_items_foldl_push hj with hj | hj
  · exact absurd hj List.not_mem_nil
  · obtain ⟨e, he, rfl⟩ := List.mem_map.mp hj
    exact hitems e (List.mem_of_mem_filter he)

/-- **Records that are put together in another order are alike.** -/
theorem rel_of?_of_perm (hfields : ∀ f ∈ fields, f.kind.isChange)
    (hitems : ∀ i ∈ items, i.2.kind.isChange) (hf : fields.Perm fields') (hi : items.Perm items') :
    Option.Rel Alike
      (of? fields (items.foldl (fun cs i => CollectionChange.pushTo i.1 i.2 cs) []))
      (of? fields' (items'.foldl (fun cs i => CollectionChange.pushTo i.1 i.2 cs) [])) := by
  have hfields' : ∀ f ∈ fields', f.kind.isChange := fun f h => hfields f (hf.mem_iff.mpr h)
  have hitems' : ∀ i ∈ items', i.2.kind.isChange := fun i h => hitems i (hi.mem_iff.mpr h)
  rw [of?_foldl_pushTo hfields hitems, of?_foldl_pushTo hfields' hitems', hf.isEmpty_eq,
    hi.isEmpty_eq]
  split
  · exact .none
  · exact .some (alike_of_perm hf hi)

end ChangeRecord

end SnapshotDiff
