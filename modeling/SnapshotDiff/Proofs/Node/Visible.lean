import SnapshotDiff.Proofs.Json.Same
import SnapshotDiff.Proofs.Node.Members

/-!
# What a comparison sees of a node

A comparison that reports only at some paths is blind to what lies elsewhere, but not altogether: it
tells members of a collection apart by their keys or by their identities, and it tells an object
that holds something from one that is empty, whatever it reports.

## Main definitions

* `Node.same` — equality of nodes, which holds the two floating-point zeros equal.
* `Node.restrict` — the node without what lies at other paths.
* `Node.visible` — the node without what a comparison does not look at.

## Main results

* `Node.rel_get?_of_sameFields` — equal objects have equal fields.
* `Node.get?_visibleFields` — what is left of a field.
-/

namespace SnapshotDiff

namespace Json

/-! ### Paths in free objects -/

mutual

/-- The value without the members at paths that are not shown.  Paths lead through objects only. -/
def restrict (shows : String → Bool) (path : String) : Json → Json
  | obj ms => obj (restrictMembers shows path ms)
  | v => v

/-- The members at paths that are shown. -/
def restrictMembers (shows : String → Bool) (path : String) :
    List (String × Json) → List (String × Json)
  | [] => []
  | (k, v) :: ms =>
    let below := Path.child path k
    if shows below then (k, restrict shows below v) :: restrictMembers shows path ms
    else restrictMembers shows path ms

end

theorem lookup_restrictMembers {shows : String → Bool} {path key : String} (ms : Table Json)
    (hshows : shows (Path.child path key)) : (restrictMembers shows path ms).lookup key
      = (ms.lookup key).map (restrict shows (Path.child path key)) := by
  induction ms with
  | nil => rfl
  | cons m ms ih =>
    obtain ⟨k, v⟩ := m
    rw [restrictMembers, List.lookup_cons]
    by_cases hk : key = k
    · subst hk
      simp [hshows]
    · rw [beq_false_of_ne hk, ← ih]
      split
      · rw [List.lookup_cons, beq_false_of_ne hk]
      · rfl

end Json

namespace Node

/-! ### Equality of nodes -/

mutual

/-- The nodes are equal: leaves if their values and keys are, others if what they hold is. -/
def same : Node → Node → Bool
  | leaf v j, leaf w k => Json.same v w && j == k
  | object fs, object gs => sameFields fs gs
  | collection ns, collection ms => sameMembers ns ms
  | free ms, free ns => Json.sameMembers ms ns
  | _, _ => false

/-- The fields have the same names and are equal. -/
def sameFields : List (String × Node) → List (String × Node) → Bool
  | [], [] => true
  | (k, n) :: fs, (l, m) :: gs => k == l && same n m && sameFields fs gs
  | _, _ => false

/-- The members are equal in turn. -/
def sameMembers : List Node → List Node → Bool
  | [], [] => true
  | n :: ns, m :: ms => same n m && sameMembers ns ms
  | _, _ => false

end

mutual

/-- A node is equal to itself. -/
theorem same_refl : ∀ n : Node, same n n = true
  | leaf v _ => by simp [same, Json.same_refl v]
  | object fs => by simp [same, sameFields_refl fs]
  | collection ns => by simp [same, sameMembers_refl ns]
  | free ms => by simp [same, Json.sameMembers_refl ms]

theorem sameFields_refl : ∀ fs : List (String × Node), sameFields fs fs = true
  | [] => rfl
  | (_, n) :: fs => by simp [sameFields, same_refl n, sameFields_refl fs]

theorem sameMembers_refl : ∀ ns : List Node, sameMembers ns ns = true
  | [] => rfl
  | n :: ns => by simp [sameMembers, same_refl n, sameMembers_refl ns]

end

mutual

/-- Equal nodes have equal values. -/
theorem json_same_of_same : ∀ {n m : Node}, same n m → Json.same n.json m.json
  | leaf _ _, leaf _ _, h => by
    rw [same, Bool.and_eq_true] at h
    exact h.1
  | object _, object _, h => sameMembers_of_sameFields h
  | collection _, collection _, h => sameItems_of_sameMembers h
  | free _, free _, h => h

theorem sameMembers_of_sameFields : ∀ {fs gs : List (String × Node)}, sameFields fs gs →
    Json.sameMembers (fieldValues fs) (fieldValues gs)
  | [], [], _ => rfl
  | (k, n) :: fs, (l, m) :: gs, h => by
    rw [sameFields, Bool.and_eq_true, Bool.and_eq_true] at h
    rw [fieldValues, fieldValues, Json.sameMembers, Bool.and_eq_true, Bool.and_eq_true]
    exact ⟨⟨h.1.1, json_same_of_same h.1.2⟩, sameMembers_of_sameFields h.2⟩

theorem sameItems_of_sameMembers : ∀ {ns ms : List Node}, sameMembers ns ms →
    Json.sameItems (memberValues ns) (memberValues ms)
  | [], [], _ => rfl
  | n :: ns, m :: ms, h => by
    rw [sameMembers, Bool.and_eq_true] at h
    rw [memberValues, memberValues, Json.sameItems, Bool.and_eq_true]
    exact ⟨json_same_of_same h.1, sameItems_of_sameMembers h.2⟩

end

theorem forall₂_of_sameFields : ∀ {fs gs : Table Node}, sameFields fs gs →
    List.Forall₂ (fun a b => a.1 = b.1 ∧ same a.2 b.2 = true) fs gs
  | [], [], _ => .nil
  | (k, n) :: fs, (l, m) :: gs, h => by
    rw [sameFields, Bool.and_eq_true, Bool.and_eq_true, beq_iff_eq] at h
    exact .cons h.1 (forall₂_of_sameFields h.2)

/-- Equal objects have equal fields. -/
theorem rel_get?_of_sameFields {fs gs : Table Node} (h : sameFields fs gs) (name : String) :
    Option.Rel (fun n m => same n m = true) (fs.get? name) (gs.get? name) := by
  rw [Table.get?_eq_lookup, Table.get?_eq_lookup]
  exact (forall₂_of_sameFields h).rel_lookup name

/-! ### What is at the paths that are shown -/

mutual

/-- The node without the fields, and without the members of free objects, at paths that are not
shown.  The members of a collection have the path of the collection. -/
def restrict (shows : String → Bool) (path : String) : Node → Node
  | object fs => object (restrictFields shows path fs)
  | collection ms => collection (restrictMembers shows path ms)
  | free ms => free (Json.restrictMembers shows path ms)
  | leaf v k => leaf v k

/-- The fields at paths that are shown. -/
def restrictFields (shows : String → Bool) (path : String) :
    List (String × Node) → List (String × Node)
  | [] => []
  | (name, n) :: fs =>
    let below := Path.child path name
    if shows below then (name, restrict shows below n) :: restrictFields shows path fs
    else restrictFields shows path fs

/-- What is left of the members of a collection. -/
def restrictMembers (shows : String → Bool) (path : String) : List Node → List Node
  | [] => []
  | n :: ns => restrict shows path n :: restrictMembers shows path ns

end

/-! ### What a comparison sees -/

/-- The node is an empty object, and none of those that count as present all the same. -/
def isVoid (defaults : List String) (path : String) : Node → Bool
  | object fs => fs.isEmpty && !defaults.contains path
  | _ => false

mutual

/-- The node without what a comparison does not look at if it reports at the shown paths only.  The
members of a collection without an identity are looked at as wholes. -/
def visible (defaults : List String) (shows : String → Bool) : FieldShape → String → Node → Node
  | .object _ fields, path, object fs => object (visibleFields defaults shows none fields path fs)
  | .objects _ fields (some identity), path, collection ms =>
    collection (visibleMembers defaults shows identity fields path ms)
  | .free, path, free ms => free (Json.restrictMembers shows path ms)
  | _, _, n => n

/-- The fields that are looked at.  The one that is `kept` is, wherever it is; others are at shown
paths, unless they hold an empty object that does not count. -/
def visibleFields (defaults : List String) (shows : String → Bool) (kept : Option String)
    (fields : List (String × FieldShape)) (path : String) :
    List (String × Node) → List (String × Node)
  | [] => []
  | (name, n) :: fs =>
    let below := Path.child path name
    let rest := visibleFields defaults shows kept fields path fs
    if kept = some name then (name, n) :: rest
    else if !shows below || isVoid defaults below n then rest
    else match fields.lookup name with
      | some s => (name, visible defaults shows s below n) :: rest
      | none => (name, n) :: rest

/-- What is looked at of members with an identity.  A member that lacks it is looked at as a
whole. -/
def visibleMembers (defaults : List String) (shows : String → Bool) (identity : String)
    (fields : List (String × FieldShape)) (path : String) : List Node → List Node
  | [] => []
  | object fs :: ns =>
    (if Table.contains fs identity then
      object (visibleFields defaults shows (some identity) fields path fs)
    else object fs) :: visibleMembers defaults shows identity fields path ns
  | n :: ns => n :: visibleMembers defaults shows identity fields path ns

end

/-- What is looked at of a member, if it has the identity; a member that lacks it is left whole. -/
def visibleMember (defaults : List String) (shows : String → Bool) (identity : String)
    (fields : List (String × FieldShape)) (path : String) (fs : Table Node) : Node :=
  if fs.contains identity then object (visibleFields defaults shows (some identity) fields path fs)
  else object fs

/-- What is looked at of a field, if it counts as present. -/
def visible? (defaults : List String) (shows : String → Bool) (s : FieldShape) (path : String)
    (n : Node) : Option Node :=
  if isVoid defaults path n then none else some (visible defaults shows s path n)

variable {defaults : List String} {shows : String → Bool} {fields : List (String × FieldShape)}
  {path name : String}

/-- Only what is declared as an object can be void. -/
theorem Fits.exists_object_of_isVoid {P : Json → Prop} {s : FieldShape} {n : Node}
    (h : Fits P s n) (hn : isVoid defaults path n) :
    ∃ typeName fields, s = .object typeName fields := by
  cases h with
  | object => exact ⟨_, _, rfl⟩
  | _ => simp [isVoid] at hn

/-- An object is present unless it is void. -/
theorem presentObject?_eq_ite {rules : Rules} (fs : Table Node) :
    Finding.presentObject? rules path (some (.object fs))
      = if isVoid rules.defaultObjects path (.object fs) then none else some fs := by
  rw [presentObject?_object, isVoid]
  cases fs.isEmpty <;> cases rules.defaultObjects.contains path <;> rfl

/-- The field that is kept is left as it is. -/
theorem get?_visibleFields_kept (fs : Table Node) :
    Table.get? (visibleFields defaults shows (some name) fields path fs) name = fs.get? name := by
  induction fs with
  | nil => rfl
  | cons f fs ih =>
    obtain ⟨k, n⟩ := f
    rw [visibleFields]
    by_cases hk : k = name
    · simp [hk]
    · simp only [Option.some.injEq, Ne.symm hk, if_false, Table.get?_cons, hk]
      split
      · exact ih
      · split <;> simpa [hk] using ih

/-- The identity of a member is looked at in any case. -/
theorem exists_visibleMember (identity : String) (fs : Table Node) : ∃ fs' : Table Node,
    visibleMember defaults shows identity fields path fs = object fs'
      ∧ fs'.get? identity = fs.get? identity := by
  rw [visibleMember]
  split
  · exact ⟨_, rfl, get?_visibleFields_kept fs⟩
  · exact ⟨fs, rfl, rfl⟩

/-- What is left of another field. -/
theorem get?_visibleFields {kept : Option String} {s : FieldShape} (hkept : kept ≠ some name)
    (hshows : shows (Path.child path name)) (hs : fields.lookup name = some s) {fs : Table Node}
    (hfs : fs.Ascending) : Table.get? (visibleFields defaults shows kept fields path fs) name
      = (fs.get? name).bind (visible? defaults shows s (Path.child path name)) := by
  induction fs with
  | nil => rfl
  | cons f fs ih =>
    obtain ⟨k, n⟩ := f
    obtain ⟨hlt, hfs⟩ := List.pairwise_cons.mp hfs
    have hrest := ih hfs
    rw [visibleFields]
    by_cases hk : k = name
    · subst hk
      -- the name does not come again, so an empty object is not replaced by a later one
      have hnone : Table.get? fs k = none := by
        rw [Table.get?_eq_lookup, List.lookup_eq_none_iff_notMem]
        intro hmem
        obtain ⟨g, hg, hname⟩ := List.mem_map.mp hmem
        exact absurd (hlt g hg) (hname ▸ String.lt_irrefl _)
      rw [hnone] at hrest
      simp only [if_neg hkept, hshows, Bool.not_true, Bool.false_or, hs, Table.get?_cons, if_true,
        Option.bind_some, visible?]
      split
      · exact hrest
      · simp
    · simp only [Table.get?_cons, if_neg hk]
      split
      · simpa [hk] using hrest
      · split
        · exact hrest
        · split <;> simpa [hk] using hrest

end Node

end SnapshotDiff
