import Mathlib.Logic.Relation
import Mathlib.Order.Bounds.Basic
import SnapshotDiff.Proofs.Correlation.Order
import SnapshotDiff.Proofs.Correlation.Partition

/-!
# The closure of the members at which a change was found

The members that hold a change are the least set that holds the members at which one was found and,
with a member, the one in whose collection it was matched.  Nothing is assumed of the findings here:
an object may be its own parent, parents may go round in a circle, or have no group.

The set can be found one member at a time: a *climb* keeps the members whose parents were not looked
at yet, and may take them in any order.  Every step either finds a parent that was missing or leaves
one member fewer to look at, so a climb ends whatever the parents are, and what it has found by then
is the least set.

## Main definitions

* `Correlation.Marks` — what a set of members has to hold.
* `Climb`, `Climb.Step` — a climb, and one step of it.
* `Correlation.IsModified` — a group makes the record tell of its object as modified.

## Main results

* `Correlation.isLeast_dirty` — the members found are the least set.
* `Climb.wellFounded_step` — every climb ends.
* `Climb.mem_found_iff` — every climb that has ended has found the least set.
* `Correlation.mem_itemsOf_iff` — the groups that contribute a modified item.
* `Correlation.dirty_least_closure` — all of this for any findings.
-/

namespace SnapshotDiff

open Finding

namespace Correlation

variable {c : Correlation} {fs : List Finding} {o p : Owner} {D : Set Owner}

/-! ### The least set -/

/-- The set holds every member at which a change was found, and with a member the one in whose
collection it was matched. -/
structure Marks (c : Correlation) (D : Set Owner) : Prop where
  /-- Something came to one of its collections or left it. -/
  membership : ∀ o g, c.get? o = some g → ∀ m ∈ g.memberships,
    m.site.owner.isRoot = false → m.site.owner ∈ D
  /-- One of its fields changed, and it did not itself come or leave. -/
  field : ∀ o g, c.get? o = some g → o.isRoot = false → g.memberships = [] →
    (∃ change ∈ g.fields, change.kind ≠ .nothing) → o ∈ D
  parent : ∀ o ∈ D, ∀ p, c.parent? o = some p → p.isRoot = false → p ∈ D

/-- A member that holds a change is not the root. -/
theorem HoldsChange.isRoot_eq_false (h : (ofFindings fs).HoldsChange o) : o.isRoot = false := by
  cases h with
  | changed h => exact (mem_changed_iff.mp h).1
  | parent _ _ hroot => exact hroot

/-- What holds a change is in every set that holds what it has to. -/
theorem HoldsChange.mem_of_marks (hD : (ofFindings fs).Marks D)
    (h : (ofFindings fs).HoldsChange o) : o ∈ D := by
  induction h with
  | changed h =>
    obtain ⟨hroot, ⟨p, g, hg, m, hm, rfl⟩ | ⟨g, hg, hnil, hchange⟩⟩ := mem_changed_iff.mp h
    · exact hD.membership p g (get?_eq_some_iff.mpr hg) m hm hroot
    · exact hD.field _ g (get?_eq_some_iff.mpr hg) hroot hnil hchange
  | parent _ hp hroot ih => exact hD.parent _ ih _ hp hroot

/-- What holds a change is all that has to be held. -/
theorem marks_holdsChange (fs : List Finding) :
    (ofFindings fs).Marks {o | (ofFindings fs).HoldsChange o} where
  membership p g hg m hm hroot :=
    .changed (mem_changed_iff.mpr ⟨hroot, Or.inl ⟨p, g, get?_eq_some_iff.mp hg, m, hm, rfl⟩⟩)
  field _ g hg hroot hnil hchange :=
    .changed (mem_changed_iff.mpr ⟨hroot, Or.inr ⟨g, get?_eq_some_iff.mp hg, hnil, hchange⟩⟩)
  parent _ ho _ hp hroot := .parent ho hp hroot

/-- **The members found by climbing are the least set of members** that holds those at which a
change was found and is closed under parents. -/
theorem isLeast_dirty (fs : List Finding) :
    IsLeast {D : Set Owner | (∀ o ∈ D, o.isRoot = false) ∧ (ofFindings fs).Marks D}
      {o | o ∈ (ofFindings fs).dirty} := by
  have hdirty : {o | o ∈ (ofFindings fs).dirty} = {o | (ofFindings fs).HoldsChange o} :=
    Set.ext fun _ => mem_dirty_iff
  rw [hdirty]
  refine ⟨⟨fun o ho => ho.isRoot_eq_false, marks_holdsChange fs⟩, ?_⟩
  rintro D ⟨-, hD⟩ o ho
  exact ho.mem_of_marks hD

/-- The rounds end because nothing is left to be found, not because they are used up. -/
theorem newParents_dirty (c : Correlation) : c.newParents c.dirty = [] := by
  refine List.eq_nil_iff_forall_not_mem.mpr fun p hp => ?_
  obtain ⟨⟨o, ho, hop⟩, hroot, hnot⟩ := mem_newParents.mp hp
  exact hnot (mem_dirty_iff.mpr (.parent (mem_dirty_iff.mp ho) hop hroot))

end Correlation

/-! ### One member at a time -/

/-- A climb under way. -/
structure Climb where
  found : List Owner
  /-- The members found whose parents were not looked at yet. -/
  pending : List Owner

namespace Climb

variable {c : Correlation} {s t : Climb} {o p : Owner} {start : List Owner}

/-- The parent of some pending member is looked at.  If it is a member that was not found yet, it is
found and becomes pending. -/
inductive Step (c : Correlation) : Climb → Climb → Prop
  | climbs {found before after : List Owner} {o p : Owner} (parent : c.parent? o = some p)
    (isMember : p.isRoot = false) (isNew : p ∉ found) :
    Step c ⟨found, before ++ o :: after⟩ ⟨p :: found, p :: (before ++ after)⟩
  | stays {found before after : List Owner} {o : Owner}
    (known : ∀ p, c.parent? o = some p → p.isRoot = false → p ∈ found) :
    Step c ⟨found, before ++ o :: after⟩ ⟨found, before ++ after⟩

/-- The member to be looked at may be the first one. -/
theorem Step.climbs_first {found pending : List Owner} (parent : c.parent? o = some p)
    (isMember : p.isRoot = false) (isNew : p ∉ found) :
    Step c ⟨found, o :: pending⟩ ⟨p :: found, p :: pending⟩ := by
  have h : Step c ⟨found, [] ++ o :: pending⟩ ⟨p :: found, p :: ([] ++ pending)⟩ :=
    .climbs parent isMember isNew
  exact h

theorem Step.stays_first {found pending : List Owner}
    (known : ∀ p, c.parent? o = some p → p.isRoot = false → p ∈ found) :
    Step c ⟨found, o :: pending⟩ ⟨found, pending⟩ := by
  have h : Step c ⟨found, [] ++ o :: pending⟩ ⟨found, [] ++ pending⟩ := .stays known
  exact h

/-- The parents still missing, with the members still to be looked at. -/
def measure (c : Correlation) (s : Climb) : ℕ := (c.missing s.found).length + s.pending.length

/-- Every step finds a parent that was missing, or leaves one member fewer. -/
theorem measure_lt_of_step (h : Step c s t) : t.measure c < s.measure c := by
  cases h with
  | climbs parent _ isNew =>
    have hmissing := Correlation.length_missing_append_lt parent isNew (List.mem_singleton_self _)
    rw [List.singleton_append] at hmissing
    simp only [measure, List.length_cons, List.length_append]
    omega
  | stays => simp [measure]

/-- **Every climb ends**, whatever the parents are. -/
theorem wellFounded_step (c : Correlation) : WellFounded fun t s => Step c s t :=
  Subrelation.wf measure_lt_of_step (InvImage.wf (measure c) Nat.lt_wfRel.wf)

/-- A climb goes on as long as a member is pending. -/
theorem exists_step (c : Correlation) (h : s.pending ≠ []) : ∃ t, Step c s t := by
  obtain ⟨found, pending⟩ := s
  obtain ⟨o, pending, rfl⟩ := List.exists_cons_of_ne_nil h
  by_cases hnew : ∃ p, c.parent? o = some p ∧ p.isRoot = false ∧ p ∉ found
  · obtain ⟨p, parent, isMember, isNew⟩ := hnew
    exact ⟨_, .climbs_first parent isMember isNew⟩
  · refine ⟨_, .stays_first fun p hp hroot => ?_⟩
    by_contra hnot
    exact hnew ⟨p, hp, hroot, hnot⟩

/-- What holds of a climb all along.  A parent can be missing only from members that are pending. -/
structure Invariant (c : Correlation) (start : List Owner) (s : Climb) : Prop where
  start : start ⊆ s.found
  pending : s.pending ⊆ s.found
  holds : ∀ o ∈ s.found, c.HoldsChange o
  parent : ∀ o ∈ s.found, o ∉ s.pending → ∀ p, c.parent? o = some p → p.isRoot = false →
    p ∈ s.found

theorem invariant_start (h : ∀ o ∈ start, o ∈ c.changed) : Invariant c start ⟨start, start⟩ where
  start := List.Subset.refl start
  pending := List.Subset.refl start
  holds o ho := .changed (h o ho)
  parent _ ho hnot := absurd ho hnot

theorem invariant_of_step (hs : Invariant c start s) (h : Step c s t) : Invariant c start t := by
  cases h with
  | @climbs found before after o p parent isMember isNew =>
    have ho : o ∈ found := hs.pending (by simp)
    refine ⟨fun q hq => List.mem_cons_of_mem p (hs.start hq), ?_, ?_, ?_⟩
    · refine List.cons_subset_cons p fun q hq => hs.pending ?_
      exact (List.Sublist.append_left (List.sublist_cons_self o after) before).subset hq
    · rintro q (_ | ⟨_, hq⟩)
      · exact .parent (hs.holds o ho) parent isMember
      · exact hs.holds q hq
    · intro q hq hnot r hr hroot
      obtain ⟨hqp, hnot⟩ := not_or.mp (mt List.mem_cons.mpr hnot)
      have hq : q ∈ found := (List.mem_cons.mp hq).resolve_left hqp
      by_cases hqo : q = o
      · -- the parent of the member that was looked at is the one that was found
        obtain rfl := Option.some.inj (parent.symm.trans (hqo ▸ hr))
        exact List.mem_cons_self
      · refine List.mem_cons_of_mem p (hs.parent q hq ?_ r hr hroot)
        simpa [hqo] using hnot
  | @stays found before after o known =>
    refine ⟨hs.start, fun q hq => hs.pending ?_, hs.holds, fun q hq hnot r hr hroot => ?_⟩
    · exact (List.Sublist.append_left (List.sublist_cons_self o after) before).subset hq
    · by_cases hqo : q = o
      · exact known r (hqo ▸ hr) hroot
      · refine hs.parent q hq ?_ r hr hroot
        simpa [hqo] using hnot

theorem invariant_of_steps (hs : Invariant c start s) (h : Relation.ReflTransGen (Step c) s t) :
    Invariant c start t := by
  induction h with
  | refl => exact hs
  | tail _ hstep ih => exact invariant_of_step ih hstep

/-- **A climb that has ended has found the members that hold a change**, whichever member it took
at each step. -/
theorem mem_found_iff (hstart : ∀ o, o ∈ start ↔ o ∈ c.changed)
    (h : Relation.ReflTransGen (Step c) ⟨start, start⟩ t) (hend : t.pending = []) :
    o ∈ t.found ↔ o ∈ c.dirty := by
  have ht := invariant_of_steps (invariant_start fun o => (hstart o).mp) h
  rw [Correlation.mem_dirty_iff]
  constructor
  · exact ht.holds o
  · intro ho
    induction ho with
    | changed ho => exact ht.start ((hstart _).mpr ho)
    | parent _ hp hroot ih => exact ht.parent _ ih (hend ▸ List.not_mem_nil) _ hp hroot

end Climb

/-! ### Members that are told of as modified -/

namespace Correlation

variable {c : Correlation} {fs : List Finding} {o : Owner} {r : ChangeRecord} {i : ItemChange}
  {name : String}

/-- The group makes the record tell of its object as modified. -/
structure IsModified (dirty : List Owner) (o : Owner) (g : Group) (m : Match) : Prop where
  noMembership : g.memberships = []
  matched : g.matched = some m
  isRoot : m.site.owner.isRoot
  dirty : o ∈ dirty

/-- A group contributes a modified item if its object was matched in a collection of the root, holds
a change, and did not come or leave. -/
theorem mem_itemsOf_iff {dirty : List Owner} {g : Group} (hi : i.kind = .modified) :
    (name, i) ∈ itemsOf dirty o g
      ↔ ∃ m, IsModified dirty o g m ∧ name = m.site.collection ∧ i = .modified m.old m.new := by
  rw [itemsOf]
  split
  · next hmember =>
    -- what came or left is not told of as modified
    constructor
    · intro h
      obtain ⟨m, -, hm⟩ := List.mem_filterMap.mp h
      obtain ⟨item, hitem, heq⟩ := Option.map_eq_some_iff.mp hm
      obtain ⟨-, rfl⟩ := Prod.mk.inj heq
      unfold itemOf? at hitem
      split at hitem
      · obtain rfl := Option.some.inj hitem
        cases hi
      · obtain rfl := Option.some.inj hitem
        cases hi
      · cases hitem
    · rintro ⟨m, hm, -⟩
      rw [Group.isMembership, hm.noMembership] at hmember
      cases hmember
  · next hmember =>
    have hnil : g.memberships = [] := by simpa [Group.isMembership] using hmember
    cases hmatched : g.matched with
    | none =>
      refine iff_of_false List.not_mem_nil ?_
      rintro ⟨m, hm, -⟩
      rw [hm.matched] at hmatched
      cases hmatched
    | some m =>
      dsimp only
      constructor
      · intro h
        split at h
        · next hcond =>
          rw [Bool.and_eq_true, List.contains_iff_mem] at hcond
          obtain ⟨rfl, rfl⟩ := Prod.mk.inj (List.mem_singleton.mp h)
          exact ⟨m, ⟨hnil, hmatched, hcond.1, hcond.2⟩, rfl, rfl⟩
        · exact absurd h List.not_mem_nil
      · rintro ⟨m', hm', rfl, rfl⟩
        obtain rfl := Option.some.inj (hmatched.symm.trans hm'.matched)
        rw [if_pos (by rw [hm'.isRoot, List.contains_iff_mem.mpr hm'.dirty]; rfl)]
        exact List.mem_singleton_self _

theorem collectionChanges_eq_map (c : Correlation) : c.collectionChanges
    = (c.items.map Prod.fst).eraseDups.map (CollectionChange.ofItems c.items) :=
  CollectionChange.foldl_pushTo_nil c.items

/-- What the record tells of a member was contributed by a group. -/
theorem mem_items_of_record? (hr : c.record? = some r) {coll : CollectionChange}
    (hcoll : coll ∈ r.collections) (hi : i ∈ coll.items) : (coll.name, i) ∈ c.items := by
  rw [record?_eq] at hr
  split at hr
  · cases hr
  · obtain rfl := Option.some.inj hr
    rw [collectionChanges_eq_map] at hcoll
    obtain ⟨name, -, rfl⟩ := List.mem_map.mp hcoll
    have hitem := (CollectionChange.mem_items_foldl_push hi).resolve_left List.not_mem_nil
    obtain ⟨⟨name', i'⟩, hmem, rfl⟩ := List.mem_map.mp hitem
    obtain ⟨hmem, hname⟩ := List.mem_filter.mp hmem
    rw [CollectionChange.name_ofItems, ← of_decide_eq_true hname]
    exact hmem

/-- What a group contributes is told of, or a change that is equal to it. -/
theorem exists_record?_of_mem_items (h : (name, i) ∈ c.items) :
    ∃ r, c.record? = some r ∧ ∃ coll ∈ r.collections, coll.name = name
      ∧ ∃ j ∈ coll.items, j.same i := by
  have hne : ¬(c.fieldChanges.isEmpty && c.items.isEmpty) := by
    simp [List.ne_nil_of_mem h]
  refine ⟨_, (record?_eq c).trans (if_neg hne), CollectionChange.ofItems c.items name, ?_,
    CollectionChange.name_ofItems _ _, ?_⟩
  · rw [collectionChanges_eq_map]
    exact List.mem_map_of_mem (List.mem_eraseDups.mpr (List.mem_map.mpr ⟨_, h, rfl⟩))
  · refine CollectionChange.exists_mem_foldl_push (List.mem_map.mpr ⟨(name, i), ?_, rfl⟩)
    exact List.mem_filter.mpr ⟨h, decide_eq_true rfl⟩

/-- **The members that hold a change are the least set, and finding them always ends.**  Of any list
of findings, the members found are the least set of members that holds those at which a change was
found and is closed under parents.  One member at a time, every climb ends, and it ends with this
set.  The record tells of a member as modified if and only if the member was matched in a collection
of the root, is in the set, and did not come or leave; of equal changes it tells one. -/
theorem dirty_least_closure (fs : List Finding) :
    IsLeast {D : Set Owner | (∀ o ∈ D, o.isRoot = false) ∧ (ofFindings fs).Marks D}
      {o | o ∈ (ofFindings fs).dirty}
    ∧ (ofFindings fs).newParents (ofFindings fs).dirty = []
    ∧ (WellFounded fun t s => Climb.Step (ofFindings fs) s t)
    ∧ (∀ s : Climb, s.pending ≠ [] → ∃ t, Climb.Step (ofFindings fs) s t)
    ∧ (∀ start t, (∀ o, o ∈ start ↔ o ∈ (ofFindings fs).changed) →
      Relation.ReflTransGen (Climb.Step (ofFindings fs)) ⟨start, start⟩ t → t.pending = [] →
        ∀ o, o ∈ t.found ↔ o ∈ (ofFindings fs).dirty)
    ∧ (∀ r, (ofFindings fs).record? = some r → ∀ coll ∈ r.collections, ∀ i ∈ coll.items,
      i.kind = .modified → ∃ o g m, (ofFindings fs).get? o = some g
        ∧ IsModified (ofFindings fs).dirty o g m
        ∧ coll.name = m.site.collection ∧ i = .modified m.old m.new)
    ∧ ∀ o g m, (ofFindings fs).get? o = some g → IsModified (ofFindings fs).dirty o g m →
      ∃ r, (ofFindings fs).record? = some r ∧ ∃ coll ∈ r.collections,
        coll.name = m.site.collection ∧ ∃ i ∈ coll.items, i.same (.modified m.old m.new) := by
  refine ⟨isLeast_dirty fs, newParents_dirty _, Climb.wellFounded_step _,
    fun _ => Climb.exists_step _, fun _ _ hstart hsteps hend _ =>
      Climb.mem_found_iff hstart hsteps hend, fun r hr coll hcoll i hi hkind => ?_,
    fun o g m hg hm => ?_⟩
  · obtain ⟨⟨o, g⟩, hg, hitem⟩ := List.mem_flatMap.mp (mem_items_of_record? hr hcoll hi)
    obtain ⟨m, hm, hname, hi⟩ := (mem_itemsOf_iff hkind).mp hitem
    exact ⟨o, g, m, get?_eq_some_iff.mpr hg, hm, hname, hi⟩
  · refine exists_record?_of_mem_items (List.mem_flatMap.mpr ⟨(o, g), get?_eq_some_iff.mp hg, ?_⟩)
    exact (mem_itemsOf_iff rfl).mpr ⟨m, hm, rfl, rfl⟩

end Correlation

namespace Circling

def first : Owner := (Owner.root "Shelf").member "Book" "books" "#1"

def second : Owner := (Owner.root "Shelf").member "Book" "books" "#2"

def third : Owner := (Owner.root "Shelf").member "Book" "books" "#3"

/-- Two books are matched in collections of each other; a field of the one changed.  A third book is
matched in a collection of its own and then in one of the root, and something came to it. -/
def findings : List Finding :=
  [.matched ⟨second, "books.others"⟩ first (.int 1) (.int 2),
    .matched ⟨first, "books.others"⟩ second (.int 3) (.int 4),
    .field first ⟨.added, "title", "books.title", none, some (.str "A")⟩,
    .matched ⟨third, "books.others"⟩ third (.int 5) (.int 6),
    .matched ⟨.root "Shelf", "books"⟩ third (.int 5) (.int 6),
    .member ⟨third, "books.tags"⟩ (third.member "Value" "books.tags" "x") .added (.str "x")]

/-- A climb finds the three books, and the record tells of the third one as modified. -/
theorem dirty_least_closure_findings :
    (∀ o, o ∈ [second, first, third] ↔ o ∈ (Correlation.ofFindings findings).dirty)
    ∧ ∃ r, (Correlation.ofFindings findings).record? = some r ∧ ∃ coll ∈ r.collections,
      coll.name = "books" ∧ ∃ i ∈ coll.items, i.same (.modified (.int 5) (.int 6)) := by
  obtain ⟨-, -, -, -, hclimb, -, hmodified⟩ := Correlation.dirty_least_closure findings
  have hchanged : (Correlation.ofFindings findings).changed = [first, third] := by decide
  have hdirty := hclimb [first, third] ⟨[second, first, third], []⟩ (fun o => by rw [hchanged])
    (.tail (.tail (.tail .refl (.climbs_first (p := second) (by decide) (by decide) (by decide)))
      (.stays_first (by decide))) (.stays_first (by decide))) rfl
  have hthird := (hdirty third).mp (by decide)
  exact ⟨hdirty, hmodified third _ _ rfl ⟨rfl, rfl, rfl, hthird⟩⟩

end Circling

end SnapshotDiff
