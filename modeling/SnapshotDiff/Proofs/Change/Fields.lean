import SnapshotDiff.Proofs.Finding.Sides

/-!
# Changes of fields

The changes of a leaf, of an object that is there on one side only, and of a free object, from the
two values alone.  The findings on these fields say just that of the object that they are about.

## Main definitions

* `FieldChange.ofValues`, `FieldChange.ofLeaves` — the change of a field, if there is one.
* `FieldChange.ofFree` — the changes in a free object, in the order of the walk.

## Main results

* `Finding.ofValues_eq_map`, `Finding.ofLeaves_eq_map`, `Finding.ofFree_eq_map` — the findings.
-/

namespace SnapshotDiff

open Finding (present? onlyIn)

namespace FieldChange

/-- The change of a field whose values may be absent, if there is one. -/
def ofValues (name path : String) : (old new : Option Json) → (equal : Bool) → List FieldChange
  | none, none, _ => []
  | none, some w, _ => [⟨.added, name, path, none, some w⟩]
  | some v, none, _ => [⟨.removed, name, path, some v, none⟩]
  | some v, some w, equal => if equal then [] else [⟨.modified, name, path, some v, some w⟩]

/-- The change of a leaf, which is compared by its key. -/
def ofLeaves (name path : String) : (old new : Option (Json × String)) → List FieldChange
  | some a, some b => ofValues name path (some a.1) (some b.1) (a.2 == b.2)
  | a, b => ofValues name path (a.map Prod.fst) (b.map Prod.fst) false

/-- What only the new side of a free object has. -/
def ofArrivals (rules : Rules) (path : String) (old new : Table Json) : List FieldChange :=
  (onlyIn new old).flatMap fun m =>
    if rules.reportable (Path.child path m.1) then
      ofValues m.1 (Path.child path m.1) none (present? (some m.2)) false
    else []

mutual

/-- The changes of what the old side of a free object has. -/
def ofEntries (rules : Rules) (path : String) (new : Table Json) :
    (old : List (String × Json)) → List FieldChange
  | [] => []
  | (k, v) :: old =>
    (if rules.reportable (Path.child path k) then
      ofEntry rules k (Path.child path k) (present? (Table.get? new k)) v
    else []) ++ ofEntries rules path new old

/-- The changes of one value of a free object.  Objects on both sides are compared by what they
hold, other values as wholes. -/
def ofEntry (rules : Rules) (name path : String) (new : Option Json) :
    (old : Json) → List FieldChange
  | .obj ms =>
    match new with
    | some (.obj ns) => ofEntries rules path ns ms ++ ofArrivals rules path ms ns
    | _ => ofValues name path (some (.obj ms)) new false
  | v => ofValues name path (present? (some v)) new (Json.same? (present? (some v)) new)

end

/-- The changes in a free object. -/
def ofFree (rules : Rules) (path : String) (old new : Table Json) : List FieldChange :=
  ofEntries rules path new old ++ ofArrivals rules path old new

/-! ### What they tell -/

theorem isChange_of_mem_ofValues {name path : String} {old new : Option Json} {equal : Bool}
    {c : FieldChange} (h : c ∈ ofValues name path old new equal) : c.kind.isChange := by
  cases old <;> cases new <;> simp only [ofValues, List.not_mem_nil, List.mem_singleton] at h
  · exact h ▸ rfl
  · exact h ▸ rfl
  · split at h
    · exact absurd h List.not_mem_nil
    · exact List.mem_singleton.mp h ▸ rfl

theorem isChange_of_mem_ofLeaves {name path : String} {old new : Option (Json × String)}
    {c : FieldChange} (h : c ∈ ofLeaves name path old new) : c.kind.isChange := by
  rw [ofLeaves.eq_def] at h
  split at h <;> exact isChange_of_mem_ofValues h

theorem path_of_mem_ofValues {name path : String} {old new : Option Json} {equal : Bool}
    {c : FieldChange} (h : c ∈ ofValues name path old new equal) : c.path = path := by
  cases old <;> cases new <;> simp only [ofValues, List.not_mem_nil, List.mem_singleton] at h
  · exact h ▸ rfl
  · exact h ▸ rfl
  · split at h
    · exact absurd h List.not_mem_nil
    · exact List.mem_singleton.mp h ▸ rfl

theorem path_of_mem_ofLeaves {name path : String} {old new : Option (Json × String)}
    {c : FieldChange} (h : c ∈ ofLeaves name path old new) : c.path = path := by
  rw [ofLeaves.eq_def] at h
  split at h <;> exact path_of_mem_ofValues h

section Free

variable {rules : Rules} {c : FieldChange}

/-- The change is that of a field at a reportable path. -/
def IsReportable (rules : Rules) (c : FieldChange) : Prop :=
  ∃ name path old new equal, rules.reportable path ∧ c ∈ ofValues name path old new equal

theorem isReportable_of_mem_ofArrivals {path : String} {old new : Table Json}
    (h : c ∈ ofArrivals rules path old new) : c.IsReportable rules := by
  obtain ⟨m, -, hc⟩ := List.mem_flatMap.mp h
  split at hc
  · next hpath => exact ⟨_, _, _, _, _, hpath, hc⟩
  · exact absurd hc List.not_mem_nil

mutual

theorem isReportable_of_mem_ofEntries {path : String} {new : Table Json} :
    ∀ old, c ∈ ofEntries rules path new old → c.IsReportable rules
  | [], h => absurd h List.not_mem_nil
  | (k, v) :: old, h => by
    rw [ofEntries] at h
    rcases List.mem_append.mp h with h | h
    · split at h
      · next hpath => exact isReportable_of_mem_ofEntry hpath v h
      · exact absurd h List.not_mem_nil
    · exact isReportable_of_mem_ofEntries old h

theorem isReportable_of_mem_ofEntry {name path : String} {new : Option Json}
    (hpath : rules.reportable path) :
    ∀ old, c ∈ ofEntry rules name path new old → c.IsReportable rules
  | .obj ms, h => by
    rw [ofEntry.eq_def] at h
    dsimp only at h
    split at h
    · rcases List.mem_append.mp h with h | h
      · exact isReportable_of_mem_ofEntries ms h
      · exact isReportable_of_mem_ofArrivals h
    · exact ⟨_, _, _, _, _, hpath, h⟩
  | .null, h | .bool _, h | .int _, h | .float _, h | .str _, h | .arr _, h => by
    rw [ofEntry.eq_def] at h
    exact ⟨_, _, _, _, _, hpath, h⟩

end

/-- The changes in a free object are changes of fields at reportable paths. -/
theorem isReportable_of_mem_ofFree {path : String} {old new : Table Json}
    (h : c ∈ ofFree rules path old new) : c.IsReportable rules := by
  rcases List.mem_append.mp h with h | h
  · exact isReportable_of_mem_ofEntries old h
  · exact isReportable_of_mem_ofArrivals h

theorem IsReportable.isChange (h : c.IsReportable rules) : c.kind.isChange := by
  obtain ⟨_, _, _, _, _, -, hc⟩ := h
  exact isChange_of_mem_ofValues hc

theorem IsReportable.reportable (h : c.IsReportable rules) : rules.reportable c.path := by
  obtain ⟨_, _, _, _, _, hpath, hc⟩ := h
  rwa [path_of_mem_ofValues hc]

end Free

end FieldChange

/-! ### The findings -/

namespace Finding

variable {rules : Rules} {o : Owner}

theorem ofValues_eq_map (name path : String) (old new : Option Json) (equal : Bool) :
    ofValues o name path old new equal
      = (FieldChange.ofValues name path old new equal).map (field o) := by
  cases old <;> cases new <;> cases equal <;> rfl

theorem ofLeaves_eq_map (name path : String) (old new : Option (Json × String)) :
    ofLeaves o name path old new = (FieldChange.ofLeaves name path old new).map (field o) := by
  cases old <;> cases new <;> exact ofValues_eq_map _ _ _ _ _

theorem newMembers_eq_map (path : String) (old new : Table Json) :
    newMembers rules o path old new
      = (FieldChange.ofArrivals rules path old new).map (field o) := by
  induction new with
  | nil => rfl
  | cons m new ih =>
    obtain ⟨k, v⟩ := m
    rw [newMembers, ih, FieldChange.ofArrivals, FieldChange.ofArrivals, onlyIn, onlyIn,
      List.filter_cons, Table.contains_eq_isSome_lookup]
    cases old.lookup k with
    | none =>
      simp only [Option.isSome_none, Bool.not_false, Bool.and_true, Option.isNone_none, if_true,
        List.flatMap_cons, List.map_append, ofValues_eq_map]
      split <;> rfl
    | some w => simp

mutual

theorem oldMembers_eq_map (path : String) (new : Table Json) : ∀ old : List (String × Json),
    oldMembers rules o path new old
      = (FieldChange.ofEntries rules path new old).map (field o)
  | [] => by rw [oldMembers, FieldChange.ofEntries, List.map_nil]
  | (k, v) :: old => by
    rw [oldMembers, FieldChange.ofEntries, List.map_append, ← oldMembers_eq_map path new old]
    congr 1
    split
    · exact ofFreeMember_eq_map k (Path.child path k) _ v
    · rfl

theorem ofFreeMember_eq_map (name path : String) (new : Option Json) : ∀ old : Json,
    ofFreeMember rules o name path new old
      = (FieldChange.ofEntry rules name path new old).map (field o)
  | .obj ms => by
    rw [ofFreeMember.eq_def, FieldChange.ofEntry.eq_def]
    match new with
    | some (.obj ns) =>
      dsimp only
      rw [List.map_append, oldMembers_eq_map path ns ms, newMembers_eq_map]
    | none | some .null | some (.bool _) | some (.int _) | some (.float _) | some (.str _)
    | some (.arr _) => exact ofValues_eq_map _ _ _ _ _
  | .null | .bool _ | .int _ | .float _ | .str _ | .arr _ => by
    rw [ofFreeMember.eq_def, FieldChange.ofEntry.eq_def]
    exact ofValues_eq_map _ _ _ _ _

end

/-- The findings in a free object are its changes. -/
theorem ofFree_eq_map (path : String) (old new : Table Json) :
    ofFree rules o path old new = (FieldChange.ofFree rules path old new).map (field o) := by
  rw [ofFree, FieldChange.ofFree, List.map_append, oldMembers_eq_map, newMembers_eq_map]

end Finding

end SnapshotDiff
