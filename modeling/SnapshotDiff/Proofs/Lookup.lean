import SnapshotDiff.Proofs.Change.Routes
import SnapshotDiff.Proofs.Congruence
import SnapshotDiff.Proofs.Entity.Defaults
import SnapshotDiff.Proofs.Ignoring
import SnapshotDiff.Proofs.Independent

/-!
# Field changes and their paths

A field change is looked up by its path.  What lies below one declared field lies below no other, so
two changes can share a path only if they are in one free object, at two routes that are written
alike.

## Main definitions

* `FieldShape.hasFree` — there is a free object in the shape, outside of collections.
* `Change.fieldPaths` — the paths of the field changes.
* `Snapshot.customFields` — what a user has in the only free object of the built-in shapes.

## Main results

* `Change.nodup_fieldPaths_ofField` — where there is no free object every path is told once.
* `Change.nodup_fieldPaths_ofFields_iff` — the fields of an object do not interfere.
* `Rules.nodup_path_iff_unambiguous` — **the field changes of a record have different paths if and
  only if no two routes at which custom fields differ are written alike, and then every change is
  found at its path.**
-/

namespace SnapshotDiff

/-! ### Free objects in a shape -/

namespace FieldShape

mutual

/-- There is a free object in the shape, outside of collections. -/
def hasFree : FieldShape → Bool
  | free => true
  | object _ fields => anyFree fields
  | leaf _ | leaves _ | objects _ _ _ => false

/-- There is one in the shape of a field. -/
def anyFree : List (String × FieldShape) → Bool
  | [] => false
  | (_, s) :: fields => hasFree s || anyFree fields

end

theorem anyFree_eq_false_iff {fields : List (String × FieldShape)} :
    anyFree fields = false ↔ ∀ f ∈ fields, hasFree f.2 = false := by
  induction fields with
  | nil => simp [anyFree]
  | cons f fields ih => simp [anyFree, ih]

end FieldShape

namespace Change

variable {rules : Rules} {path : String}

/-- The paths of the field changes. -/
def fieldPaths (cs : List Change) : List String := (cs.filterMap field?).map FieldChange.path

theorem fieldPaths_flatMap {α : Type} (l : List α) (f : α → List Change) :
    fieldPaths (l.flatMap f) = l.flatMap fun a => fieldPaths (f a) := by
  rw [fieldPaths, List.filterMap_flatMap, List.map_flatMap]
  rfl

theorem fieldPaths_map_field (cs : List FieldChange) :
    fieldPaths (cs.map field) = cs.map FieldChange.path := by
  rw [fieldPaths, List.filterMap_map]
  exact congrArg (List.map _) List.filterMap_some

theorem fieldPaths_ofItems (items : List ItemChange) : fieldPaths (ofItems path items) = [] := by
  unfold ofItems
  split <;> rfl

theorem mem_fieldPaths_iff {cs : List Change} {p : String} :
    p ∈ fieldPaths cs ↔ ∃ c, field c ∈ cs ∧ c.path = p := by
  unfold fieldPaths
  constructor
  · intro hp
    obtain ⟨c, hc, rfl⟩ := List.mem_map.mp hp
    exact ⟨c, mem_filterMap_field?.mp hc, rfl⟩
  · rintro ⟨c, hc, rfl⟩
    exact List.mem_map_of_mem (mem_filterMap_field?.mpr hc)

/-- A field with one value has one change at the most. -/
theorem nodup_path_ofValues {name : String} {old new : Option Json} {equal : Bool} :
    ((FieldChange.ofValues name path old new equal).map FieldChange.path).Nodup := by
  cases old <;> cases new <;> cases equal <;> simp [FieldChange.ofValues]

/-- The fields of an object do not interfere: paths repeat only within a field. -/
theorem nodup_fieldPaths_ofFields_iff {fields : List (String × FieldShape)} {old new : Table Node}
    (halpha : alphanumeric (fields.map Prod.fst))
    (hfields : ∀ f ∈ fields, f.2.everyObject alphanumeric)
    (hpath : ∀ f ∈ fields, Path.child path f.1 ≠ "") :
    (fieldPaths (ofFields rules path old new fields)).Nodup
      ↔ ∀ f ∈ fields, rules.reportable (Path.child path f.1) →
        (fieldPaths (ofField rules f.1 (Path.child path f.1) (old.get? f.1) (new.get? f.1)
          f.2)).Nodup := by
  have hbelow : ∀ {f : String × FieldShape} {p : String}, f ∈ fields →
      p ∈ fieldPaths (if rules.reportable (Path.child path f.1) then
        ofField rules f.1 (Path.child path f.1) (old.get? f.1) (new.get? f.1) f.2 else []) →
          Path.within p (Path.child path f.1) := by
    intro f p hf hp
    split at hp
    · obtain ⟨c, hc, rfl⟩ := mem_fieldPaths_iff.mp hp
      exact within_of_mem_ofField (hfields f hf) (hpath f hf) hc
    · simp [fieldPaths] at hp
  rw [ofFields_eq_flatMap, fieldPaths_flatMap, List.nodup_flatMap]
  constructor
  · rintro ⟨h, -⟩ f hf hreport
    have hf := h f hf
    rwa [if_pos hreport] at hf
  · intro h
    constructor
    · intro f hf
      split
      · next hreport => exact h f hf hreport
      · exact List.nodup_nil
    · -- a path of two fields would lie below both
      have hnames := List.pairwise_map.mp
        (List.nodup_iff_pairwise_ne.mp (nodup_of_alphanumeric halpha))
      refine hnames.imp_of_mem fun {f g} hf hg hne => ?_
      intro p hpf hpg
      have heq := eq_of_within_fields halpha hf hg (hbelow hf hpf) (hbelow hg hpg)
      exact hne (congrArg Prod.fst heq)

/-- **Where there is no free object every path is told once.** -/
theorem nodup_fieldPaths_ofField {s : FieldShape} (hs : s.everyObject alphanumeric)
    (hfree : s.hasFree = false) : ∀ {name path : String} {old new : Option Node}, path ≠ "" →
      (fieldPaths (ofField rules name path old new s)).Nodup := by
  induction s using FieldShape.fieldInduction with
  | leaf kind =>
    intro name path old new _
    rw [ofField, fieldPaths_map_field, FieldChange.ofLeaves.eq_def]
    split <;> exact nodup_path_ofValues
  | object typeName fields ih =>
    intro name path old new hpath
    obtain ⟨halpha, hfields⟩ := FieldShape.everyObject_object.mp hs
    rw [FieldShape.hasFree, FieldShape.anyFree_eq_false_iff] at hfree
    have hchild : ∀ f ∈ fields, Path.child path f.1 ≠ "" :=
      fun f _ => Path.child_ne_empty_of_ne hpath f.1
    rw [ofField.eq_def]
    dsimp only
    split
    · rw [nodup_fieldPaths_ofFields_iff halpha hfields hchild]
      exact fun f hf _ => ih f hf (hfields f hf) (hfree f hf) (hchild f hf)
    · rw [fieldPaths_map_field]
      exact nodup_path_ofValues
  | leaves kind =>
    intro name path old new _
    rw [ofField, fieldPaths_ofItems]
    exact List.nodup_nil
  | objects typeName fields identity ih =>
    intro name path old new _
    cases identity with
    | none | some identity =>
      rw [ofField, fieldPaths_ofItems]
      exact List.nodup_nil
  | free => simp [FieldShape.hasFree] at hfree

end Change

/-- Where paths do not repeat, every field change is found at its path. -/
theorem ChangeRecord.field?_of_nodup {r : ChangeRecord}
    (h : (r.fields.map FieldChange.path).Nodup) : ∀ c ∈ r.fields, r.field? c.path = some c := by
  intro c hc
  unfold field?
  cases hfound : r.fields.find? (·.path = c.path) with
  | none => simpa using List.find?_eq_none.mp hfound c hc
  | some d =>
    have hpath : d.path = c.path := by simpa using List.find?_some hfound
    rw [List.inj_on_of_nodup_map h (List.mem_of_find?_eq_some hfound) hc hpath]

/-- **One field of a record.**  What a record tells below a field of the root is what the walk finds
on that field. -/
theorem Rules.mem_fields_within_iff {rules : Rules} {s t : Option Json} {r : Option ChangeRecord}
    {old new : Entity} {f : String × FieldShape} {c : FieldChange}
    (hs : rules.shape.isAddressable) (hf : f ∈ rules.shape.fields) (hreport : rules.reportable f.1)
    (hold : Entity.ofSnapshot rules s = .ok old) (hnew : Entity.ofSnapshot rules t = .ok new)
    (h : rules.diff s t = .ok r) :
    c ∈ (r.getD .nothing).fields ∧ Path.within c.path f.1
      ↔ .field c ∈ Change.ofField rules f.1 f.1 (old.root.get? f.1) (new.root.get? f.1) f.2 := by
  obtain ⟨halpha, hfields⟩ :=
    FieldShape.everyObject_object.mp (Shape.isAlphanumeric_of_isAddressable hs)
  obtain ⟨old', new', hold', hnew', rfl⟩ := (diff_eq_ok_iff hs).mp h
  obtain rfl := Except.ok.inj (hold.symm.trans hold')
  obtain rfl := Except.ok.inj (hnew.symm.trans hnew')
  have hwithin : ∀ {g : String × FieldShape}, g ∈ rules.shape.fields →
      .field c ∈ Change.ofField rules g.1 g.1 (old.root.get? g.1) (new.root.get? g.1) g.2 →
        Path.within c.path g.1 := fun hg hc =>
    Change.within_of_mem_ofField (hfields _ hg) (Shape.ne_empty_of_isAddressable hs _ hg) hc
  rw [onePass, Change.getD_record?, Change.mem_filterMap_field?, Change.ofFields_eq_flatMap,
    List.mem_flatMap]
  constructor
  · rintro ⟨⟨g, hg, hc⟩, hpath⟩
    rw [Path.child_root] at hc
    split at hc
    · -- the change lies below no other field
      have hgroot : Path.within c.path (Path.child "" g.1) := hwithin hg hc
      obtain rfl := eq_of_within_fields halpha hg hf hgroot hpath
      exact hc
    · exact absurd hc List.not_mem_nil
  · intro hc
    refine ⟨⟨f, hf, ?_⟩, hwithin hf hc⟩
    rw [Path.child_root, if_pos hreport]
    exact hc

/-! ### Custom fields -/

/-- The members of the field `customFields` of a snapshot. -/
def Snapshot.customFields (s : Option Json) : Table Json :=
  ((s.bind (·.member? "customFields")).bind Json.members?).getD []

namespace Rules

theorem mem_customFields : ("customFields", FieldShape.free) ∈ (builtIn .user).shape.fields := by
  simp [builtIn, Users.rules, Users.shape]

/-- The only free object of the built-in shapes outside of collections is that of a user. -/
theorem eq_customFields_of_hasFree {f : Family} {g : String × FieldShape}
    (hg : g ∈ (builtIn f).shape.fields) (hfree : g.2.hasFree) :
    f = .user ∧ g = ("customFields", .free) := by
  have hall : ∀ f : Family, ∀ g ∈ (builtIn f).shape.fields, g.2.hasFree →
      f = .user ∧ g.1 = "customFields" := by
    intro f
    cases f <;> decide
  obtain ⟨rfl, hname⟩ := hall f g hg hfree
  have hnames := (FieldShape.everyObject_object.mp
    (Shape.isAlphanumeric_of_isAddressable (isAddressable_builtIn .user))).1
  exact ⟨rfl, List.inj_on_of_nodup_map (nodup_of_alphanumeric hnames) hg mem_customFields hname⟩

/-- Custom fields are reported, whatever their keys are. -/
theorem reportable_customFields {p : String} (hp : Path.within p "customFields") :
    (builtIn .user).reportable p := by
  show (!Path.within p "metadata") = true
  rw [Bool.not_eq_true', ← Bool.not_eq_true]
  intro hmetadata
  rw [← Path.child_root "customFields"] at hp
  rw [← Path.child_root "metadata"] at hmetadata
  have heq := Path.eq_of_within_child (by decide) (by decide) hp hmetadata
  exact absurd heq (by decide)

variable {s : Option Json} {e : Entity}

/-- The custom fields of a user are those of the snapshot. -/
theorem free?_customFields (h : Entity.ofSnapshot (builtIn .user) s = .ok e) :
    ((e.root.get? "customFields").bind Node.free?).getD [] = Snapshot.customFields s := by
  obtain ⟨root, hroot, rfl⟩ := Entity.ofSnapshot_eq_ok.mp h
  have halpha := Shape.isAlphanumeric_of_isAddressable (isAddressable_builtIn .user)
  -- custom fields are no default object
  have hget : ((builtIn .user).defaultObjects.foldl (Entity.openDefault (builtIn .user).shape)
      root).get? "customFields" = root.get? "customFields" := by
    show (Entity.openDefault Users.shape root "personal").get? "customFields" = _
    rw [Entity.openDefault, show Path.segments "personal" = ["personal"] from by decide]
    split
    · exact Node.get?_openObjects_of_ne (by decide)
    · rfl
  dsimp only
  rw [hget, Snapshot.customFields]
  rcases Entity.get?_of_readRoot rfl
    (nodup_of_alphanumeric (FieldShape.everyObject_object.mp halpha).1) mem_customFields hroot with
    ⟨v, n, hv, -, hn, hget⟩ | ⟨hnull, hget⟩
  · rw [Node.readField] at hn
    obtain ⟨ms, hms, hn⟩ := Except.bind_eq_ok.mp hn
    obtain rfl := Node.objectMembers_eq_ok.mp hms
    obtain rfl := Except.ok.inj hn
    rw [hget, hv]
    rfl
  · rw [hget]
    cases hv : s.bind (·.member? "customFields") with
    | none => rfl
    | some v =>
      obtain rfl := hnull v hv
      rfl

theorem canonical_customFields (hs : ∀ v ∈ s, v.Canonical)
    (h : Entity.ofSnapshot (builtIn .user) s = .ok e) :
    (Json.obj (Snapshot.customFields s)).Canonical := by
  have hfits := fits_canonical (isAddressable_builtIn .user) (preserves_builtIn .user) hs h
  rw [← free?_customFields h]
  exact Node.Fits.canonical_free fun n hn => hfits.field mem_customFields hn

/-- The field changes of the record of two users come from its custom fields, or have paths of their
own. -/
theorem nodup_fieldPaths_iff {f : Family} {s t : Option Json} {old new : Entity}
    (hs : ∀ v ∈ s, v.Canonical) (ht : ∀ v ∈ t, v.Canonical)
    (hold : Entity.ofSnapshot (builtIn f) s = .ok old)
    (hnew : Entity.ofSnapshot (builtIn f) t = .ok new) :
    (Change.fieldPaths (Change.ofFields (builtIn f) "" old.root new.root
        (builtIn f).shape.fields)).Nodup
      ↔ (f = .user → FieldChange.Unambiguous "customFields" (Snapshot.customFields s)
          (Snapshot.customFields t)) := by
  have haddressable := isAddressable_builtIn f
  have hpaths := Shape.child_ne_empty_of_isAddressable haddressable
  obtain ⟨halpha, hfields⟩ :=
    FieldShape.everyObject_object.mp (Shape.isAlphanumeric_of_isAddressable haddressable)
  rw [Change.nodup_fieldPaths_ofFields_iff halpha hfields hpaths]
  -- what is told of custom fields, of which the walk finds both sides in the snapshots
  have hcustom : ∀ {old new : Entity}, Entity.ofSnapshot (builtIn .user) s = .ok old →
      Entity.ofSnapshot (builtIn .user) t = .ok new →
      ((Change.fieldPaths (Change.ofField (builtIn .user) "customFields" "customFields"
          (old.root.get? "customFields") (new.root.get? "customFields") .free)).Nodup
        ↔ FieldChange.Unambiguous "customFields" (Snapshot.customFields s)
          (Snapshot.customFields t)) := by
    intro old new hold hnew
    rw [Change.ofField, Change.fieldPaths_map_field, free?_customFields hold,
      free?_customFields hnew]
    exact FieldChange.nodup_path_ofFree_iff (canonical_customFields hs hold)
      (canonical_customFields ht hnew) (by decide) fun p => reportable_customFields
  constructor
  · rintro h rfl
    exact (hcustom hold hnew).mp
      (h _ mem_customFields (reportable_customFields (Path.within_self _)))
  · intro h g hg hreport
    by_cases hgfree : g.2.hasFree
    · obtain ⟨rfl, rfl⟩ := eq_customFields_of_hasFree hg hgfree
      exact (hcustom hold hnew).mpr (h rfl)
    · exact Change.nodup_fieldPaths_ofField (hfields g hg) (by simpa using hgfree) (hpaths g hg)

/-- **A path names one change, if it can be read in one way.**  The field changes of a record have
different paths if and only if no two routes at which the custom fields of the snapshots differ are
written alike, and then every change is found at its path. -/
theorem nodup_path_iff_unambiguous {f : Family} {s t : Option Json} {r : ChangeRecord}
    (hs : ∀ v ∈ s, v.Canonical) (ht : ∀ v ∈ t, v.Canonical)
    (h : (builtIn f).diff s t = .ok (some r)) :
    ((r.fields.map FieldChange.path).Nodup
      ↔ (f = .user → FieldChange.Unambiguous "customFields" (Snapshot.customFields s)
          (Snapshot.customFields t)))
      ∧ ((f = .user → FieldChange.Unambiguous "customFields" (Snapshot.customFields s)
          (Snapshot.customFields t)) → ∀ c ∈ r.fields, r.field? c.path = some c) := by
  obtain ⟨old, new, hold, hnew, hrecord⟩ := (diff_eq_ok_iff (isAddressable_builtIn f)).mp h
  have hiff := nodup_fieldPaths_iff hs ht hold hnew
  rw [onePass, Change.record?] at hrecord
  split at hrecord
  · simp at hrecord
  · obtain rfl := Option.some.inj hrecord
    exact ⟨hiff, fun hunambiguous => ChangeRecord.field?_of_nodup (hiff.mpr hunambiguous)⟩

/-- A user with the given custom fields. -/
def userWith (customFields : Table Json) : Json := .obj [("customFields", .obj customFields)]

/-- Custom fields with a key that has a dot and continues the key of an object. -/
def dotted (n : Int) : Table Json := [("a", .obj [("b", .int n)]), ("a.c", .int n)]

theorem canonical_dotted (n : Int) : (userWith (dotted n)).Canonical := by
  simp only [userWith, dotted, Json.Canonical, Json.CanonicalMembers, Table.ascending_iff,
    List.map_cons, List.map_nil]
  decide

/-- They differ at two routes. -/
theorem route_of_dotted {route : List String}
    (h : FieldChange.DifferAt route (some (.obj (dotted 1))) (some (.obj (dotted 2)))) :
    route = ["a", "b"] ∨ route = ["a.c"] := by
  -- a route ends at a number
  have hnumber : ∀ {route : List String},
      FieldChange.DifferAt route (some (.int 1)) (some (.int 2)) → route = [] :=
    fun h => ((FieldChange.differAt_iff_of_not_objects fun _ _ h => by simp at h).mp h).1
  cases route with
  | nil => exact absurd h FieldChange.not_differAt_nil_objects
  | cons k route =>
    have hk := FieldChange.mem_keys_of_differAt h
    rw [FieldChange.differAt_cons_objects] at h
    simp only [dotted, Table.keys, List.map_cons, List.map_nil, List.mem_cons, List.not_mem_nil,
      or_false, or_self] at hk
    rcases hk with rfl | rfl
    · cases route with
      | nil => exact absurd h FieldChange.not_differAt_nil_objects
      | cons l route =>
        have hl := FieldChange.mem_keys_of_differAt h
        obtain rfl : l = "b" := by simpa [Table.keys] using hl
        exact Or.inl (by rw [hnumber h])
    · exact Or.inr (by rw [hnumber h])

/-- Such a key is no harm if the object has no such field. -/
theorem nodup_path_iff_unambiguous_dotted : ∃ r,
    (builtIn .user).diff (some (userWith (dotted 1))) (some (userWith (dotted 2))) = .ok (some r)
      ∧ r.fields.map FieldChange.path = ["customFields.a.b", "customFields.a.c"]
      ∧ ∀ c ∈ r.fields, r.field? c.path = some c := by
  refine ⟨_, rfl, rfl, ?_⟩
  refine (nodup_path_iff_unambiguous (f := .user)
    (fun v hv => Option.some.inj hv ▸ canonical_dotted 1)
    (fun v hv => Option.some.inj hv ▸ canonical_dotted 2) rfl).2 fun _ p q hp hq hpath => ?_
  rcases route_of_dotted hp with rfl | rfl <;> rcases route_of_dotted hq with rfl | rfl
  · rfl
  · exact absurd hpath (by decide)
  · exact absurd hpath (by decide)
  · rfl

/-- The changes of two keys that lead to one path. -/
def twins : ChangeRecord where
  fields := [⟨.modified, "b", "customFields.a.b", some (.int 1), some (.int 2)⟩,
    ⟨.modified, "a.b", "customFields.a.b", some (.int 1), some (.int 2)⟩]
  collections := []

/-- Two changes have one path if a key with a dot is written like a key in an object.  Only the
first of them is found there. -/
theorem hidden_behind_twin :
    (builtIn .user).diff
        (some (userWith [("a", .obj [("b", .int 1)]), ("a.b", .int 1)]))
        (some (userWith [("a", .obj [("b", .int 2)]), ("a.b", .int 2)])) = .ok (some twins)
      ∧ ¬(twins.fields.map FieldChange.path).Nodup
      ∧ (twins.field? "customFields.a.b").map FieldChange.name = some "b" :=
  ⟨rfl, by decide, rfl⟩

end Rules

end SnapshotDiff
