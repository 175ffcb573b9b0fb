import SnapshotDiff.Proofs.Change.Congruence
import SnapshotDiff.Proofs.Change.Sides
import SnapshotDiff.Proofs.Entity.Defaults
import SnapshotDiff.Proofs.Holding
import SnapshotDiff.Proofs.Node.Exact

/-!
# Creation

Compared with an absent snapshot, an entity is told as what it holds: every place of it that can be
reported and that something is at is one addition.  The absent side has its default objects, so that
the walk goes through these, and has nothing else.

## Main definitions

* `Holding.field?`, `Holding.collection?` — the addition of what is at a place.

## Main results

* `Change.ofField_of_blank` — beside the absent side a field is told as what it holds.
* `Rules.diff_of_absent` — the record of a creation.
* `Rules.diff_builtIn_of_absent` — **a creation is reported exactly**, for the built-in rules.
-/

namespace SnapshotDiff

open Finding (sides onlyIn byKey byIdentity members presentObject?)

namespace Holding

/-- The addition of a value. -/
def field? : Holding → Option FieldChange
  | value name path v => some ⟨.added, name, path, none, some v⟩
  | collection _ _ => none

/-- The addition of the members of a collection. -/
def collection? : Holding → Option CollectionChange
  | value _ _ _ => none
  | collection path vs => some ⟨path, vs.map ItemChange.added⟩

/-- The addition of what is at the place. -/
def change : Holding → Change
  | value name path v => .field ⟨.added, name, path, none, some v⟩
  | collection path vs => .collection ⟨path, vs.map ItemChange.added⟩

theorem filterMap_field?_map_change (hs : List Holding) :
    (hs.map change).filterMap Change.field? = hs.filterMap field? := by
  rw [List.filterMap_map]
  exact List.filterMap_congr fun h _ => by cases h <;> rfl

theorem filterMap_collection?_map_change (hs : List Holding) :
    (hs.map change).filterMap Change.collection? = hs.filterMap collection? := by
  rw [List.filterMap_map]
  exact List.filterMap_congr fun h _ => by cases h <;> rfl

end Holding

/-! ### One side only -/

theorem Finding.sides_nil {α β : Type} {f : String → Option α → Option α → List β}
    (news : List (String × α)) : sides f [] news = news.flatMap fun m => f m.1 none (some m.2) := by
  have honly : onlyIn news ([] : List (String × α)) = news := List.filter_eq_self.mpr fun _ _ => rfl
  rw [sides, honly]
  rfl

namespace Change

variable {rules : Rules} {path : String}

/-- Members beside none are told one by one, if their values tell them apart. -/
theorem ofItems_sides_nil {α : Type} {json : α → Json} {differ : α → α → Bool}
    {news : List (String × α)} {identity : Option String} {ns : List Node}
    (hnews : (news.map Prod.fst).Nodup)
    (hkeys : ∀ m ∈ news, ∀ n ∈ news, Json.same (json m.2) (json n.2) → m.1 = n.1)
    (hvalues : (news.map fun m => json m.2) = (Node.firsts identity ns).map Node.json) :
    ofItems path (sides (ItemChange.ofSides json differ) [] news)
      = (Holding.ofMembers path identity ns).map Holding.change := by
  have hall : (sides (ItemChange.ofSides json differ) [] news).Pairwise fun i j => ¬i.same j :=
    ItemChange.pairwise_sides List.nodup_nil hnews (fun _ hm => absurd hm List.not_mem_nil) hkeys
  have hitems : sides (ItemChange.ofSides json differ) [] news
      = ((Node.firsts identity ns).map Node.json).map ItemChange.added := by
    rw [← hvalues, Finding.sides_nil, List.map_map, List.map_eq_flatMap]
    rfl
  rw [hitems] at hall ⊢
  rw [ofItems, List.isEmpty_map, List.isEmpty_map, Node.isEmpty_firsts, Holding.ofMembers]
  split
  · rfl
  · -- no two additions are equal, so that each of them is told
    rw [CollectionChange.foldl_push_eq ⟨path, []⟩ hall]
    rfl

theorem ofItems_sets_nil {s : FieldShape} (hs : s.isExact) {P : Json → Prop} {ns : List Node}
    (hns : ∀ n ∈ ns, Node.Fits P s n) :
    ofItems path (sides (ItemChange.ofSides Node.json fun _ _ => false) (byKey []) (byKey ns))
      = (Holding.ofMembers path none ns).map Holding.change := by
  refine ofItems_sides_nil (Finding.nodup_keys_byKey ns) (Node.byKey_eq_of_same hs hns) ?_
  rw [Node.byKey_eq_map_firsts, List.map_map]
  rfl

theorem ofItems_identified_nil {typeName identity : String} {fields : List (String × FieldShape)}
    (hs : (FieldShape.object typeName fields).isExact) {P : Json → Prop} {ns : List Node}
    (hns : ∀ n ∈ ns, Node.Fits P (.object typeName fields) n)
    {differ : Table Node → Table Node → Bool} :
    ofItems path (sides (ItemChange.ofSides (fun fs => (Node.object fs).json) differ)
        (byIdentity identity []) (byIdentity identity ns))
      = (Holding.ofMembers path (some identity) ns).map Holding.change := by
  refine ofItems_sides_nil (Finding.nodup_keys_byIdentity identity ns)
    (fun m hm n hn hsame => ?_) ?_
  · rw [Node.byIdentity_eq_of_same hs hns m hm n hn hsame]
  · have hobjects : ∀ n ∈ ns, ∃ fs, n = Node.object fs := fun n hn => (hns n hn).exists_object
    rw [Node.byIdentity_eq_map_firsts identity hobjects, List.map_map,
      ← Node.map_object_filterMap fun n hn => hobjects n (Node.mem_of_mem_firsts hn), List.map_map,
      Node.filterMap_object?_map]
    rfl

/-- A free object beside none is told key by key. -/
theorem map_ofFree_nil (ms : Table Json) : (FieldChange.ofFree rules path [] ms).map field
    = (ms.filterMap (Holding.ofFree? rules path)).map Holding.change := by
  rw [FieldChange.ofFree_eq_sides, Finding.sides_nil, List.map_flatMap,
    List.filterMap_eq_flatMap_toList, List.map_flatMap]
  refine List.flatMap_congr fun m _ => ?_
  obtain ⟨k, v⟩ := m
  rw [FieldChange.ofFreeSides, Holding.ofFree?,
    FieldChange.ofFreeValues_eq_ofValues fun _ _ h => by simp [Finding.present?] at h]
  cases hreport : rules.reportable (Path.child path k) with
  | false => rfl
  | true => cases v <;> rfl

/-- **Beside the absent side a field is told as what it holds.** -/
theorem ofField_of_blank {P : Json → Prop} (hnames : rules.shape.isAlphanumeric)
    (hshallow : rules.hasShallowDefaults) {s : FieldShape} (hs : s.hasExactMembers) :
    ∀ {name path : String} {n : Option Node}, path ≠ "" → (∀ m ∈ n, Node.Fits P s m) →
      (rules.defaultObjects.contains path → n.isSome) →
        ofField rules name path (rules.blank? path) n s
          = (Holding.ofField rules name path n s).map Holding.change := by
  -- the absent side has an empty object at the most
  have hblank : ∀ path, rules.blank? path = none ∨ rules.blank? path = some (.object []) := by
    intro path
    unfold Rules.blank?
    split
    · exact Or.inr rfl
    · exact Or.inl rfl
  have hmembers : ∀ path, members (rules.blank? path) = [] := by
    intro path
    rcases hblank path with h | h <;> rw [h] <;> rfl
  induction s using FieldShape.fieldInduction with
  | leaf kind =>
    intro name path n _ _ _
    have hleaf : (rules.blank? path).bind Node.leaf? = none := by
      rcases hblank path with h | h <;> rw [h] <;> rfl
    rw [ofField, Holding.ofField, hleaf]
    cases n.bind Node.leaf? <;> rfl
  | object typeName fields ih =>
    intro name path n hpath hn hsome
    rw [FieldShape.hasExactMembers, FieldShape.everyElement_object] at hs
    rw [ofField, Holding.ofField]
    by_cases hdefault : rules.defaultObjects.contains path
    · -- a default object is there on both sides, so the walk goes on below it
      obtain ⟨n, rfl⟩ := Option.isSome_iff_exists.mp (hsome hdefault)
      obtain ⟨fs, rfl⟩ := (hn n rfl).exists_object
      rw [Rules.blank?, if_pos hdefault, Node.presentObject?_object, Node.presentObject?_object,
        hdefault, Bool.true_or, Bool.true_or, if_pos rfl, if_pos rfl, if_pos rfl]
      dsimp only
      rw [ofFields_eq_flatMap, Option.bind_some, Node.object?_object, Option.getD_some,
        Holding.ofFields_eq_flatMap, List.map_flatMap]
      refine List.flatMap_congr fun f hf => ?_
      have hchild := Rules.contains_child_eq_false hnames hshallow hpath f.1
      have hnone : Table.get? ([] : Table Node) f.1 = rules.blank? (Path.child path f.1) := by
        rw [Rules.blank?, hchild]
        rfl
      split
      · rw [hnone]
        exact ih f hf (hs f hf) (Path.child_ne_empty_of_ne hpath f.1)
          (fun m hm => (hn _ rfl).field hf hm) fun h => absurd h (by rw [hchild]; decide)
      · rfl
    · rw [Rules.blank?, if_neg hdefault, if_neg hdefault]
      cases n with
      | none => rfl
      | some n =>
        obtain ⟨fs, rfl⟩ := (hn n rfl).exists_object
        rw [Bool.not_eq_true] at hdefault
        rw [Node.presentObject?_object, hdefault, Bool.false_or, Option.bind_some,
          Node.object?_object, Option.getD_some]
        cases fs <;> rfl
  | leaves kind =>
    intro name path n _ hn _
    rw [ofField, Holding.ofField, hmembers]
    exact ofItems_sets_nil (s := .leaf kind) hs (Node.Fits.of_mem_members_leaves hn)
  | objects typeName fields identity ih =>
    intro name path n _ hn _
    have hns := Node.Fits.of_mem_members_objects hn
    cases identity with
    | none =>
      rw [ofField, Holding.ofField, hmembers]
      exact ofItems_sets_nil (s := .object typeName fields) hs hns
    | some identity =>
      rw [ofField, Holding.ofField, hmembers]
      exact ofItems_identified_nil hs hns
  | free =>
    intro name path n _ _ _
    have hfree : ((rules.blank? path).bind Node.free?).getD [] = [] := by
      rcases hblank path with h | h <;> rw [h] <;> rfl
    rw [ofField, Holding.ofField, hfree]
    exact map_ofFree_nil _

end Change

/-! ### Entities -/

namespace Rules

section Absent

variable {rules : Rules} {s t : Option Json} {e : Entity} (hs : rules.shape.isAddressable)
  (hshallow : rules.hasShallowDefaults)
  (hexact : (FieldShape.object rules.shape.typeName rules.shape.fields).hasExactMembers)
include hs hshallow hexact

/-- An entity beside that of an absent snapshot is told as what it holds. -/
theorem ofFields_of_absent {old : Entity} (ht : t = none ∨ t = some .null)
    (hold : Entity.ofSnapshot rules t = .ok old) (he : Entity.ofSnapshot rules s = .ok e) :
    Change.ofFields rules "" old.root e.root rules.shape.fields
      = (e.holdings rules).map Holding.change := by
  have hnames := Shape.isAlphanumeric_of_isAddressable hs
  have hfits := Entity.fits_of_isAddressable hs he
  rw [FieldShape.hasExactMembers, FieldShape.everyElement_object] at hexact
  rw [Change.ofFields_eq_flatMap, Entity.holdings, Holding.ofFields_eq_flatMap, List.map_flatMap]
  refine List.flatMap_congr fun f hf => ?_
  split
  · rw [Entity.get?_root_of_absent hnames hshallow ht hold, Path.child_root]
    exact Change.ofField_of_blank hnames hshallow (hexact f hf)
      (Shape.ne_empty_of_isAddressable hs f hf) (fun m hm => hfits.field hf hm)
      (Entity.isSome_get?_root hnames hshallow he)
  · rfl

/-- **The record of a creation** tells what the entity holds. -/
theorem diff_of_absent (ht : t = none ∨ t = some .null) (he : Entity.ofSnapshot rules s = .ok e) :
    rules.diff t s = .ok (Change.record? ((e.holdings rules).map Holding.change)) := by
  obtain ⟨old, hold⟩ : ∃ old, Entity.ofSnapshot rules t = .ok old := by
    rcases ht with rfl | rfl
    · exact ⟨_, rfl⟩
    · exact ⟨_, rfl⟩
  refine (diff_eq_ok_iff hs).mpr ⟨old, e, hold, he, ?_⟩
  rw [onePass, ofFields_of_absent hs hshallow hexact ht hold he]

end Absent

/-- **A creation is reported exactly.**  Compared with an absent snapshot, one that is read under
the built-in rules of a family yields an addition for each place that the entity holds, in the order
of these, and nothing else; there is no record if the entity holds nothing.  The places are
different ones, and bookkeeping of users is none of them. -/
theorem diff_builtIn_of_absent (f : Family) {s t : Option Json} {e : Entity}
    (ht : t = none ∨ t = some .null) (hs : ∀ v ∈ s, v.Canonical)
    (he : Entity.ofSnapshot (builtIn f) s = .ok e) :
    ∃ r, (builtIn f).diff t s = .ok r
      ∧ (r = none ↔ e.holdings (builtIn f) = [])
      ∧ (∀ record ∈ r,
        record.fields = (e.holdings (builtIn f)).filterMap Holding.field?
        ∧ record.collections = (e.holdings (builtIn f)).filterMap Holding.collection?
        ∧ (∀ c ∈ record.fields, c.kind = .added ∧ c.old = none)
        ∧ ∀ c ∈ record.collections, ∀ i ∈ c.items, i.kind = .added ∧ i.old = none)
      ∧ ((e.holdings (builtIn f)).map Holding.path).Nodup
      ∧ (f = .user → ∀ h ∈ e.holdings (builtIn f), Path.within h.path "metadata" = false) := by
  have hnames := isAddressable_builtIn f
  have hpaths := Shape.ne_empty_of_isAddressable hnames
  obtain ⟨halpha, hfields⟩ :=
    FieldShape.everyObject_object.mp (Shape.isAlphanumeric_of_isAddressable hnames)
  have hfits : e.Fits Json.Canonical (builtIn f) :=
    Entity.fits_ofSnapshot Json.hereditary_canonical
      (Shape.isAlphanumeric_of_isAddressable hnames) (preserves_builtIn f) hs he
  refine ⟨_, diff_of_absent hnames (hasShallowDefaults_builtIn f) (hasExactMembers_builtIn f) ht he,
    ?_, fun record hrecord => ?_, ?_, ?_⟩
  · rw [Change.record?]
    simp
  · rw [Change.record?] at hrecord
    split at hrecord
    · exact absurd hrecord (by simp)
    · obtain rfl := Option.some.inj hrecord
      have hfieldChanges := Holding.filterMap_field?_map_change (e.holdings (builtIn f))
      have hcollections := Holding.filterMap_collection?_map_change (e.holdings (builtIn f))
      refine ⟨hfieldChanges, hcollections, fun c hc => ?_, fun c hc i hi => ?_⟩
      · rw [hfieldChanges] at hc
        obtain ⟨h, -, hh⟩ := List.mem_filterMap.mp hc
        cases h <;> simp only [Holding.field?, Option.some.injEq, reduceCtorEq] at hh
        exact hh ▸ ⟨rfl, rfl⟩
      · rw [hcollections] at hc
        obtain ⟨h, -, hh⟩ := List.mem_filterMap.mp hc
        cases h <;> simp only [Holding.collection?, Option.some.injEq, reduceCtorEq] at hh
        subst hh
        obtain ⟨v, -, rfl⟩ := List.mem_map.mp hi
        exact ⟨rfl, rfl⟩
  · exact Holding.nodup_path_of_fields halpha hpaths fun g hg {name path} hpath =>
      Holding.nodup_path_ofField (hfields g hg) hpath fun m hm => hfits.field hg hm
  · rintro rfl h hh
    have hreport := Holding.reportable_of_mem_ofFields hpaths h hh
    exact (Bool.not_eq_true' _).mp hreport

/-- A user with two addresses of one identity and one without, a department told twice, a custom
field that is `null`, and bookkeeping. -/
def newcomer : Json :=
  .obj [("customFields", .obj [("badge", .null), ("team", .obj [("lead", .bool true)])]),
    ("departments", .arr [.str "law", .str "law"]),
    ("metadata", .obj [("createdByUserId", .str "admin")]),
    ("personal", .obj [("addresses", .arr [.obj [("city", .str "Ulm"), ("id", .str "a")],
        .obj [("city", .str "Bonn"), ("id", .str "a")], .obj [("city", .str "Bonn")]]),
      ("lastName", .str "Roe")]),
    ("username", .str "roe")]

theorem canonical_newcomer : newcomer.Canonical := by
  simp only [newcomer, Json.Canonical, Json.CanonicalMembers, Json.CanonicalItems,
    Table.ascending_iff]
  decide

theorem diff_builtIn_of_absent_newcomer : ∃ e r,
    Entity.ofSnapshot (builtIn .user) (some newcomer) = .ok e
      ∧ (builtIn .user).diff none (some newcomer) = .ok (some r)
      ∧ (e.holdings (builtIn .user)).map Holding.path
        = ["username", "personal.lastName", "personal.addresses", "departments",
          "customFields.team"]
      ∧ r.fields = (e.holdings (builtIn .user)).filterMap Holding.field?
      ∧ r.collections.map (fun c => c.items.length) = [2, 1] := by
  have he : Entity.ofSnapshot (builtIn .user) (some newcomer) = .ok _ := rfl
  obtain ⟨r, hr, hnone, hrecord, -, -⟩ := diff_builtIn_of_absent .user (t := none) (Or.inl rfl)
    (fun v hv => Option.some.inj hv ▸ canonical_newcomer) he
  cases r with
  | none =>
    have hempty := congrArg (List.map Holding.path) (hnone.mp rfl)
    exact absurd hempty (by decide +kernel)
  | some r =>
    obtain ⟨hfields, hcollections, -, -⟩ := hrecord r rfl
    refine ⟨_, r, he, hr, by decide +kernel, hfields, ?_⟩
    rw [hcollections]
    decide +kernel

end Rules

end SnapshotDiff
