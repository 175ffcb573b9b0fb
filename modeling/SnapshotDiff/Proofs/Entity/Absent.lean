import SnapshotDiff.Proofs.Entity.Reading
import SnapshotDiff.Proofs.Finding.Mirror

/-!
# Entities of absent snapshots

The entity of an absent snapshot has its default objects and nothing else: it is made of objects
all the way down.  Compared with such an entity the other one is walked alone, so that exchanging
the sides does not even change the order of what is found.

## Main definitions

* `Node.Hollow` — there are only objects in the node.

## Main results

* `Entity.hollow_ofSnapshot` — the entity of an absent snapshot is hollow.
* `Finding.ofFields_swap_of_hollow` — the walk beside a hollow side, with the sides exchanged.
-/

namespace SnapshotDiff

namespace Node

/-- The node is an object, and so are its fields, at every depth. -/
inductive Hollow : Node → Prop
  | object {fs : List (String × Node)} (fields : ∀ f ∈ fs, Hollow f.2) : Hollow (object fs)

namespace Hollow

variable {fs : Table Node} {n : Node}

theorem nil : Hollow (.object []) := .object (by simp)

theorem mem (h : Hollow (.object fs)) {f : String × Node} (hf : f ∈ fs) : f.2.Hollow := by
  cases h with
  | object fields => exact fields f hf

theorem get? (h : Hollow (.object fs)) {name : String} (hn : fs.get? name = some n) : n.Hollow :=
  h.mem (Table.mem_of_get?_eq_some hn)

theorem insert (h : Hollow (.object fs)) (name : String) (hn : n.Hollow) :
    Hollow (.object (fs.insert name n)) := by
  refine .object fun f hf => ?_
  rcases Table.mem_insert hf with rfl | hf
  · exact hn
  · exact h.mem hf

/-- What is created on a path is objects. -/
theorem openObjects {names : List String} : ∀ {fs : Table Node}, Hollow (.object fs) →
    Hollow (.object (Node.openObjects fs names).1) := by
  induction names with
  | nil => exact fun h => h
  | cons name names ih =>
    intro fs h
    unfold Node.openObjects
    split
    · exact h.insert name (ih nil)
    · next inner hinner => exact h.insert name (ih (h.get? hinner))
    · exact h

/-! ### What is not there -/

theorem collection?_eq_none (h : n.Hollow) : n.collection? = none := by
  cases h with
  | object _ => rfl

theorem free?_eq_none (h : n.Hollow) : n.free? = none := by
  cases h with
  | object _ => rfl

end Hollow

end Node

/-- **The entity of an absent snapshot is hollow.** -/
theorem Entity.hollow_ofSnapshot {rules : Rules} {s : Option Json} {e : Entity}
    (hs : s = none ∨ s = some .null) (h : Entity.ofSnapshot rules s = .ok e) :
    (Node.object e.root).Hollow := by
  obtain ⟨root, hroot, rfl⟩ := Entity.ofSnapshot_eq_ok.mp h
  obtain rfl := Except.ok.inj ((Entity.readRoot_of_absent hs).symm.trans hroot)
  refine List.foldlRecOn (motive := fun root => (Node.object root).Hollow) rules.defaultObjects
    (Entity.openDefault rules.shape) Node.Hollow.nil fun root hroot path _ => ?_
  unfold Entity.openDefault
  split
  · exact hroot.openObjects
  · exact hroot

namespace Finding

variable {rules : Rules}

theorem ofFields_swap_of_fields {fields : List (String × FieldShape)}
    (ih : ∀ f ∈ fields, ∀ {o : Owner} {name path : String} {old new : Option Node},
      (∀ n ∈ old, n.Hollow) →
        ofField rules o name path new old f.2 = (ofField rules o name path old new f.2).map swap)
    {o : Owner} {path : String} {old new : Table Node} (hold : (Node.object old).Hollow) :
    ofFields rules o path new old fields = (ofFields rules o path old new fields).map swap := by
  rw [ofFields_eq_flatMap, ofFields_eq_flatMap, List.map_flatMap]
  apply List.flatMap_congr
  intro f hf
  split
  · exact ih f hf fun n hn => hold.get? hn
  · rfl

theorem ofField_swap_of_hollow (s : FieldShape) :
    ∀ {o : Owner} {name path : String} {old new : Option Node}, (∀ n ∈ old, n.Hollow) →
      ofField rules o name path new old s = (ofField rules o name path old new s).map swap := by
  -- a hollow side has no members, so the walk over a collection has one list only
  have hmembers : ∀ {old : Option Node}, (∀ n ∈ old, n.Hollow) → members old = [] := by
    intro old hold
    cases old with
    | none => rfl
    | some n => rw [members, Option.bind_some, (hold n rfl).collection?_eq_none]; rfl
  have hsets : ∀ {o : Owner} {typeName path : String} (news : List Node),
      ofSets o typeName path news [] = (ofSets o typeName path [] news).map swap := by
    intro o typeName path news
    rw [ofSets_eq_sides, ofSets_eq_sides]
    exact sides_nil_map_swap (fun _ _ => rfl) _
  induction s using FieldShape.fieldInduction with
  | leaf kind =>
    intro o name path old new _
    rw [ofField, ofField]
    exact ofLeaves_swap _ _
  | object typeName fields ih =>
    intro o name path old new hold
    rw [ofField.eq_def, ofField.eq_def]
    dsimp only
    cases hfs : presentObject? rules path old with
    | none => cases presentObject? rules path new <;> exact ofValues_swap _ _ _
    | some fs =>
      cases presentObject? rules path new with
      | none => exact ofValues_swap _ _ _
      | some gs => exact ofFields_swap_of_fields ih (hold _ (Node.eq_object_of_presentObject? hfs))
  | leaves kind =>
    intro o name path old new hold
    rw [ofField, ofField, hmembers hold]
    exact hsets _
  | objects typeName fields identity ih =>
    intro o name path old new hold
    cases identity with
    | none =>
      rw [ofField, ofField, hmembers hold]
      exact hsets _
    | some identity =>
      rw [ofField_objects_eq_sides, ofField_objects_eq_sides, hmembers hold]
      exact sides_nil_map_swap (fun _ _ => rfl) _
  | free =>
    intro o name path old new hold
    have hfree : (old.bind Node.free?).getD [] = [] := by
      cases old with
      | none => rfl
      | some n => rw [Option.bind_some, (hold n rfl).free?_eq_none]; rfl
    rw [ofField, ofField, hfree, ofFree_eq_sides, ofFree_eq_sides]
    refine sides_nil_map_swap (fun k v => ?_) _
    rw [ofFreeSides, ofFreeSides]
    split
    · exact ofFreeValues_swap fun _ _ h _ => by simp [present?] at h
    · rfl

/-- **Beside a hollow side the walk keeps its order when the sides are exchanged.** -/
theorem ofFields_swap_of_hollow {fields : List (String × FieldShape)} {o : Owner} {path : String}
    {old new : Table Node} (hold : (Node.object old).Hollow) :
    ofFields rules o path new old fields = (ofFields rules o path old new fields).map swap :=
  ofFields_swap_of_fields (fun f _ => ofField_swap_of_hollow f.2) hold

end Finding

end SnapshotDiff
