import SnapshotDiff.Change

/-!
# The changes back

The changes from the new side to the old one: what was added is removed, and old and new values
change places.

## Main definitions

* `FieldChange.swap`, `ItemChange.swap`, `CollectionChange.swap`, `ChangeRecord.swap` — the changes
  back.

## Main results

* `CollectionChange.foldl_pushTo_swap` — putting changes together commutes with going back.
* `ChangeRecord.of?_swap` — so does making a record of them.
-/

namespace SnapshotDiff

/-! ### Single changes -/

namespace ChangeKind

/-- The kind of the change back. -/
def swap : ChangeKind → ChangeKind
  | added => removed
  | removed => added
  | modified => modified
  | nothing => nothing

theorem swap_swap (k : ChangeKind) : k.swap.swap = k := by cases k <;> rfl

theorem swap_inj {k l : ChangeKind} : k.swap = l.swap ↔ k = l := by
  constructor
  · intro h
    rw [← k.swap_swap, h, swap_swap]
  · rintro rfl
    rfl

@[simp] theorem isChange_swap (k : ChangeKind) : k.swap.isChange = k.isChange := by
  cases k <;> rfl

/-- The sides of two values may be exchanged. -/
theorem classify_swap (old new equal : Bool) :
    (classify old new equal).swap = classify new old equal := by
  cases old <;> cases new <;> cases equal <;> rfl

end ChangeKind

/-- The change of the field back. -/
def FieldChange.swap (c : FieldChange) : FieldChange := ⟨c.kind.swap, c.name, c.path, c.new, c.old⟩

namespace ItemChange

/-- The change of the member back. -/
def swap (i : ItemChange) : ItemChange := ⟨i.kind.swap, i.new, i.old⟩

/-- Equal changes are those whose changes back are equal. -/
theorem same_swap (i j : ItemChange) : i.swap.same j.swap = i.same j := by
  have hkind : (i.kind.swap == j.kind.swap) = (i.kind == j.kind) := by
    rw [Bool.eq_iff_iff, beq_iff_eq, beq_iff_eq, ChangeKind.swap_inj]
  rw [same, same, swap, swap, hkind, Bool.and_assoc, Bool.and_comm (Json.same? i.new j.new),
    Bool.and_assoc]

end ItemChange

/-! ### Collections -/

namespace CollectionChange

/-- The changes of the members back. -/
def swap (c : CollectionChange) : CollectionChange := ⟨c.name, c.items.map ItemChange.swap⟩

@[simp] theorem name_swap (c : CollectionChange) : c.swap.name = c.name := rfl

theorem push_swap (c : CollectionChange) (i : ItemChange) :
    (c.push i).swap = c.swap.push i.swap := by
  have hany : (c.items.map ItemChange.swap).any (·.same i.swap) = c.items.any (·.same i) := by
    rw [List.any_map]
    exact congrArg c.items.any (funext fun j => ItemChange.same_swap j i)
  rw [push, push, swap, swap, hany]
  split
  · rfl
  · rw [List.map_append, List.map_singleton]

theorem pushTo_swap (name : String) (i : ItemChange) (cs : List CollectionChange) :
    (pushTo name i cs).map swap = pushTo name i.swap (cs.map swap) := by
  induction cs with
  | nil => exact congrArg (fun c => [c]) (push_swap _ _)
  | cons c cs ih =>
    rw [pushTo, List.map_cons, pushTo, name_swap]
    split
    · rw [List.map_cons, push_swap]
    · rw [List.map_cons, ih]

/-- Putting changes together commutes with going back. -/
theorem foldl_pushTo_swap (items : List (String × ItemChange)) (cs : List CollectionChange) :
    (items.foldl (fun cs i => pushTo i.1 i.2 cs) cs).map swap
      = (items.map fun i => (i.1, i.2.swap)).foldl (fun cs i => pushTo i.1 i.2 cs)
          (cs.map swap) := by
  induction items generalizing cs with
  | nil => rfl
  | cons i items ih => rw [List.foldl_cons, ih, List.map_cons, List.foldl_cons, pushTo_swap]

end CollectionChange

/-! ### Records -/

namespace ChangeRecord

/-- The record of the changes back. -/
def swap (r : ChangeRecord) : ChangeRecord :=
  ⟨r.fields.map FieldChange.swap, r.collections.map CollectionChange.swap⟩

theorem of?_swap (fields : List FieldChange) (collections : List CollectionChange) :
    (of? fields collections).map swap
      = of? (fields.map FieldChange.swap) (collections.map CollectionChange.swap) := by
  have hfields : (fields.map FieldChange.swap).filter (·.kind.isChange)
      = (fields.filter (·.kind.isChange)).map FieldChange.swap := by
    rw [List.filter_map]
    exact congrArg _ (List.filter_congr fun f _ => f.kind.isChange_swap)
  -- what says nothing is left out on either side
  have hitems : ∀ is : List ItemChange, (is.map ItemChange.swap).filter (·.kind.isChange)
      = (is.filter (·.kind.isChange)).map ItemChange.swap := by
    intro is
    rw [List.filter_map]
    exact congrArg _ (List.filter_congr fun i _ => i.kind.isChange_swap)
  have hcollections : ((collections.map CollectionChange.swap).map fun c =>
        { c with items := c.items.filter (·.kind.isChange) }).filter (fun c => !c.items.isEmpty)
      = ((collections.map fun c =>
        { c with items := c.items.filter (·.kind.isChange) }).filter
          (fun c => !c.items.isEmpty)).map CollectionChange.swap := by
    rw [List.map_map, List.filter_map, List.filter_map, List.map_map]
    have hmap : ((fun c : CollectionChange => { c with items := c.items.filter (·.kind.isChange) })
          ∘ CollectionChange.swap)
        = CollectionChange.swap
          ∘ fun c => { c with items := c.items.filter (·.kind.isChange) } := by
      funext c
      exact congrArg (CollectionChange.mk c.name) (hitems c.items)
    rw [hmap]
    refine congrArg _ (List.filter_congr fun c _ => ?_)
    simp [CollectionChange.swap]
  rw [of?, of?]
  simp only [hfields, hcollections, List.isEmpty_map]
  split
  · rfl
  · rfl

end ChangeRecord

end SnapshotDiff
