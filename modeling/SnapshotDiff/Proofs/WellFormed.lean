import SnapshotDiff.Proofs.Change.Described
import SnapshotDiff.Proofs.Congruence
import SnapshotDiff.Proofs.Entity.Rendered
import SnapshotDiff.Proofs.Ignoring
import SnapshotDiff.Proofs.Lossless

/-!
# Records are well formed

What one walk over the declared fields tells is in order: every change describes its values, and in
a collection no two changes are equal or have an identity in common.  That a modified value is not
equal to the old one is because nodes of equal values are one node, in which nothing differs; this
needs shapes without floating-point numbers outside of free objects, as the built-in ones are.

## Main definitions

* `Shape.identified` — the collections of a shape whose members have an identity.
* `Change.IsSound` — a change of an object is in order.

## Main results

* `Change.isSound_of_mem_ofField` — what the walk tells is in order.
* `Rules.wellFormed_of_diff` — **the records of the built-in rules are well formed.**
-/

namespace SnapshotDiff

open Finding (sides byKey byIdentity members identityKey presentObject?)

/-! ### Collections with an identity -/

namespace FieldShape

mutual

/-- The collections at a path and below it whose members have an identity, with the field that it
is in. -/
def identifiedAt (path : String) : FieldShape → List (String × String)
  | objects _ _ (some identity) => [(path, identity)]
  | object _ fields => identifiedBelow path fields
  | leaf _ | leaves _ | objects _ _ none | free => []

/-- Those in the fields of the object at a path. -/
def identifiedBelow (path : String) : List (String × FieldShape) → List (String × String)
  | [] => []
  | (name, s) :: fields =>
    identifiedAt (Path.child path name) s ++ identifiedBelow path fields

end

theorem mem_identifiedBelow_iff {path : String} {fields : List (String × FieldShape)}
    {e : String × String} : e ∈ identifiedBelow path fields
      ↔ ∃ f ∈ fields, e ∈ identifiedAt (Path.child path f.1) f.2 := by
  induction fields with
  | nil => simp [identifiedBelow]
  | cons f fields ih => simp [identifiedBelow, ih]

/-- The collections below a path have paths below it. -/
theorem within_of_mem_identifiedAt {s : FieldShape} : ∀ {path : String} {e : String × String},
    path ≠ "" → e ∈ identifiedAt path s → Path.within e.1 path := by
  induction s using fieldInduction with
  | leaf kind => simp [identifiedAt]
  | leaves kind => simp [identifiedAt]
  | free => simp [identifiedAt]
  | object typeName fields ih =>
    intro path e hpath he
    obtain ⟨f, hf, he⟩ := mem_identifiedBelow_iff.mp he
    exact Path.within_trans (ih f hf (Path.child_ne_empty_of_ne hpath f.1) he)
      (Path.within_child hpath f.1)
  | objects typeName fields identity ih =>
    intro path e _ he
    cases identity with
    | none => simp [identifiedAt] at he
    | some identity =>
      rw [List.mem_singleton.mp he]
      exact Path.within_self path

end FieldShape

/-- The collections of a shape whose members have an identity, by their paths, with the field that
it is in. -/
def Shape.identified (shape : Shape) : List (String × String) :=
  FieldShape.identifiedBelow "" shape.fields

/-- Members of an exact shape whose values agree on the identity have one key. -/
theorem Node.identityKey_eq_of_member? {P : Json → Prop} {typeName identity : String}
    {fields : List (String × FieldShape)} (hexact : (FieldShape.object typeName fields).isExact)
    {fs gs : Table Node} (hfs : Fits P (.object typeName fields) (.object fs))
    (hgs : Fits P (.object typeName fields) (.object gs)) {v w : Json}
    (hv : (Node.object fs).json.member? identity = some v)
    (hw : (Node.object gs).json.member? identity = some w) (h : Json.same v w) :
    identityKey identity fs = identityKey identity gs := by
  have hget : ∀ fs : Table Node,
      (Node.object fs).json.member? identity = (fs.get? identity).map Node.json :=
    fun fs => Node.get?_fieldValues fs identity
  rw [hget, Option.map_eq_some_iff] at hv hw
  obtain ⟨n, hn, rfl⟩ := hv
  obtain ⟨m, hm, rfl⟩ := hw
  obtain ⟨s, hs, hfit⟩ := hfs.exists_declaration (Table.mem_of_get?_eq_some hn)
  rw [FieldShape.isExact, FieldShape.areExact_iff] at hexact
  obtain rfl := hfit.eq_of_same (hexact _ hs) (hgs.field hs hm) h
  rw [identityKey, identityKey, hn, hm]

/-! ### The walk -/

namespace Change

variable {rules : Rules} {path : String} {identified : List (String × String)}

/-- The change is in order, where some collections are known to have members with an identity. -/
def IsSound (identified : List (String × String)) : Change → Prop
  | field c => c.kind.Describes c.old c.new
  | collection c => c.items ≠ [] ∧ (∀ i ∈ c.items, i.kind.Describes i.old i.new)
    ∧ (c.items.Pairwise fun i j => ¬i.same j)
    ∧ ∀ identity, (c.name, identity) ∈ identified → c.items.Pairwise (ItemChange.SharesNo identity)

theorem isSound_of_mem_map_field {cs : List FieldChange}
    (h : ∀ c ∈ cs, c.kind.Describes c.old c.new) : ∀ c ∈ cs.map field, c.IsSound identified := by
  intro c hc
  obtain ⟨d, hd, rfl⟩ := List.mem_map.mp hc
  exact h d hd

theorem isSound_of_mem_ofItems {items : List ItemChange}
    (hdescribes : ∀ i ∈ items, i.kind.Describes i.old i.new)
    (hdistinct : items.Pairwise fun i j => ¬i.same j)
    (hidentity : ∀ identity, (path, identity) ∈ identified →
      items.Pairwise (ItemChange.SharesNo identity)) :
    ∀ c ∈ ofItems path items, c.IsSound identified := by
  intro c hc
  unfold ofItems at hc
  split at hc
  · exact absurd hc List.not_mem_nil
  · next hne =>
    -- changes that differ are all told
    rw [List.mem_singleton.mp hc, CollectionChange.foldl_push_eq ⟨path, []⟩ hdistinct]
    exact ⟨by simpa using hne, hdescribes, hdistinct, hidentity⟩

/-- What is told of a collection of which members with equal keys are one. -/
theorem isSound_of_mem_sets {s : FieldShape} {P : Json → Prop} (hs : s.isExact)
    {old new : List Node} (hold : ∀ n ∈ old, Node.Fits P s n) (hnew : ∀ n ∈ new, Node.Fits P s n)
    (hnone : ∀ identity, (path, identity) ∉ identified) :
    ∀ c ∈ ofItems path (sides (ItemChange.ofSides Node.json fun _ _ => false) (byKey old)
      (byKey new)), c.IsSound identified := by
  apply isSound_of_mem_ofItems
  · exact fun i => ItemChange.describes_of_mem_sides fun _ _ _ _ _ h => absurd h (by simp)
  · exact ItemChange.pairwise_sides (Finding.nodup_keys_byKey _) (Finding.nodup_keys_byKey _)
      (Node.byKey_eq_of_same hs hold) (Node.byKey_eq_of_same hs hnew)
  · exact fun identity h => absurd h (hnone identity)

/-- What is told of the fields of an object is in order if that is so of each field. -/
theorem isSound_of_mem_fields {fields : List (String × FieldShape)} {old new : Table Node}
    (halpha : alphanumeric (fields.map Prod.fst))
    (hfields : ∀ f ∈ fields, f.2.everyObject alphanumeric)
    (hpath : ∀ f ∈ fields, Path.child path f.1 ≠ "")
    (ih : ∀ f ∈ fields, ∀ c ∈ ofField rules f.1 (Path.child path f.1) (old.get? f.1) (new.get? f.1)
      f.2, c.IsSound (f.2.identifiedAt (Path.child path f.1))) :
    ∀ c ∈ ofFields rules path old new fields,
      c.IsSound (FieldShape.identifiedBelow path fields) := by
  intro c hc
  rw [ofFields_eq_flatMap] at hc
  obtain ⟨f, hf, hc⟩ := List.mem_flatMap.mp hc
  split at hc
  · have hsound := ih f hf c hc
    have hbelow := within_of_mem_ofField (hfields f hf) (hpath f hf) hc
    cases c with
    | field c => exact hsound
    | collection c =>
      obtain ⟨hne, hdescribes, hdistinct, hidentity⟩ := hsound
      refine ⟨hne, hdescribes, hdistinct, fun identity hmem => hidentity identity ?_⟩
      -- the collection is below one field only, so it has its identity from there
      obtain ⟨g, hg, hmem⟩ := FieldShape.mem_identifiedBelow_iff.mp hmem
      have hwithin := FieldShape.within_of_mem_identifiedAt (hpath g hg) hmem
      exact eq_of_within_fields halpha hf hg hbelow hwithin ▸ hmem
  · exact absurd hc List.not_mem_nil

/-- **What the walk tells of a field is in order.** -/
theorem isSound_of_mem_ofField {s : FieldShape} (hs : s.everyObject alphanumeric)
    (hexact : s.isExact ∨ s = .free) : ∀ {name path : String} {old new : Option Node}, path ≠ "" →
      (∀ n ∈ old, Node.Fits Json.Canonical s n) → (∀ n ∈ new, Node.Fits Json.Canonical s n) →
        ∀ c ∈ ofField rules name path old new s, c.IsSound (s.identifiedAt path) := by
  induction s using FieldShape.fieldInduction with
  | leaf kind =>
    intro name path old new _ hold hnew
    have hkind : kind.isExact := hexact.resolve_right (by simp)
    have hkey : ∀ {n : Option Node}, (∀ m ∈ n, Node.Fits Json.Canonical (.leaf kind) m) →
        ∀ a ∈ n.bind Node.leaf?, kind.key a.1 = .ok a.2 := by
      intro n hn a ha
      obtain ⟨m, hm, ha⟩ := Option.bind_eq_some_iff.mp ha
      cases hn m hm with
      | leaf key =>
        obtain rfl := Option.some.inj ha
        exact key
    rw [ofField]
    exact isSound_of_mem_map_field fun c =>
      FieldChange.describes_of_mem_ofLeaves hkind (hkey hold) (hkey hnew)
  | object typeName fields ih =>
    intro name path old new hpath hold hnew
    obtain ⟨halpha, hfields⟩ := FieldShape.everyObject_object.mp hs
    have hexact := hexact.resolve_right (by simp)
    rw [FieldShape.isExact, FieldShape.areExact_iff] at hexact
    rw [ofField.eq_def]
    dsimp only
    cases hfs : presentObject? rules path old with
    | none =>
      exact isSound_of_mem_map_field fun c => FieldChange.describes_of_mem_ofSides (Or.inl rfl)
    | some fs =>
      cases hgs : presentObject? rules path new with
      | none =>
        exact isSound_of_mem_map_field fun c => FieldChange.describes_of_mem_ofSides (Or.inr rfl)
      | some gs =>
        have hfits := hold _ (Node.eq_object_of_presentObject? hfs)
        have hfits' := hnew _ (Node.eq_object_of_presentObject? hgs)
        exact isSound_of_mem_fields halpha hfields (fun f _ => Path.child_ne_empty_of_ne hpath f.1)
          fun f hf => ih f hf (hfields f hf) (Or.inl (hexact f hf))
            (Path.child_ne_empty_of_ne hpath f.1) (fun _ => hfits.field hf)
            fun _ => hfits'.field hf
  | leaves kind =>
    intro name path old new _ hold hnew
    rw [ofField]
    exact isSound_of_mem_sets (s := .leaf kind) (hexact.resolve_right (by simp))
      (Node.Fits.of_mem_members_leaves hold) (Node.Fits.of_mem_members_leaves hnew)
      (by simp [FieldShape.identifiedAt])
  | objects typeName fields identity ih =>
    intro name path old new _ hold hnew
    have hobject : (FieldShape.object typeName fields).isExact := hexact.resolve_right (by simp)
    have hfits := Node.Fits.of_mem_members_objects hold
    have hfits' := Node.Fits.of_mem_members_objects hnew
    cases identity with
    | none =>
      rw [ofField]
      exact isSound_of_mem_sets hobject hfits hfits' (by simp [FieldShape.identifiedAt])
    | some identity =>
      -- members with their identities are those of the collection, and fit its declaration
      have hmember : ∀ m ∈ byIdentity identity (members old) ++ byIdentity identity (members new),
          m.1 = identityKey identity m.2
            ∧ Node.Fits Json.Canonical (.object typeName fields) (.object m.2) := by
        intro m hm
        rcases List.mem_append.mp hm with hm | hm
        · obtain ⟨hmem, hkey⟩ := Node.exists_of_mem_byIdentity hm
          exact ⟨hkey, hfits _ hmem⟩
        · obtain ⟨hmem, hkey⟩ := Node.exists_of_mem_byIdentity hm
          exact ⟨hkey, hfits' _ hmem⟩
      rw [ofField]
      apply isSound_of_mem_ofItems
      · refine fun i => ItemChange.describes_of_mem_sides fun m hm n hn _ hdiffer => ?_
        rw [← Bool.not_eq_true]
        intro hsame
        -- in one node nothing differs
        obtain ⟨-, hm⟩ := hmember m (List.mem_append_left _ hm)
        obtain ⟨-, hn⟩ := hmember n (List.mem_append_right _ hn)
        rw [Node.object.inj (hm.eq_of_same hobject hn hsame),
          ofFields_self_of_fields (fun f _ => ofField_self f.2) hn] at hdiffer
        exact absurd hdiffer (by simp)
      · refine ItemChange.pairwise_sides (Finding.nodup_keys_byIdentity _ _)
          (Finding.nodup_keys_byIdentity _ _) ?_ ?_
        · exact fun m hm n hn h =>
            congrArg Prod.fst (Node.byIdentity_eq_of_same hobject hfits m hm n hn h)
        · exact fun m hm n hn h =>
            congrArg Prod.fst (Node.byIdentity_eq_of_same hobject hfits' m hm n hn h)
      · intro identity' hmem
        obtain rfl := (Prod.mk.inj (List.mem_singleton.mp hmem)).2
        refine ItemChange.pairwise_identities_sides (Finding.nodup_keys_byIdentity _ _)
          (Finding.nodup_keys_byIdentity _ _) fun m hm n hn v w hv hw hsame => ?_
        obtain ⟨hkey, hm⟩ := hmember m hm
        obtain ⟨hkey', hn⟩ := hmember n hn
        rw [hkey, hkey']
        exact Node.identityKey_eq_of_member? hobject hm hn hv hw hsame
  | free =>
    intro name path old new _ _ _
    rw [ofField]
    exact isSound_of_mem_map_field fun c => FieldChange.describes_of_mem_ofFree

/-- Every collection is told of once. -/
theorem nodup_names (hs : rules.shape.isAddressable) (old new : Table Node) :
    (((ofFields rules "" old new rules.shape.fields).filterMap collection?).map
      (·.name)).Nodup := by
  obtain ⟨hnames, hfields⟩ :=
    FieldShape.everyObject_object.mp (Shape.isAlphanumeric_of_isAddressable hs)
  have hagree : Agree (fun n => ∃ f ∈ rules.shape.fields, Path.within n (Path.child "" f.1))
      (Difference.ofFields rules "" old new rules.shape.fields)
      (ofFields rules "" old new rules.shape.fields) :=
    agree_fields hnames (Shape.ne_empty_of_isAddressable hs) fun f hf =>
      agree_ofField (hfields f hf)
  -- the collections of the walk are those that the changes of members make up
  have hcollections := hagree.collections [] (by simp)
  rw [List.nil_append] at hcollections
  rw [← hcollections, ChangeRecord.map_name_foldl_pushTo]
  exact List.nodup_eraseDups _

/-- Changes that are in order make up a well-formed record. -/
theorem wellFormed_of_isSound {cs : List Change} (h : ∀ c ∈ cs, c.IsSound identified)
    (hnames : ((cs.filterMap collection?).map (·.name)).Nodup) :
    ChangeRecord.WellFormed identified ⟨cs.filterMap field?, cs.filterMap collection?⟩ where
  fields c hc := h _ (mem_filterMap_field?.mp hc)
  items i hi := by
    obtain ⟨c, hc, hi⟩ := List.mem_flatMap.mp hi
    exact (h _ (mem_filterMap_collection?.mp hc)).2.1 i hi
  names := hnames
  nonempty c hc := (h _ (mem_filterMap_collection?.mp hc)).1
  distinct c hc := (h _ (mem_filterMap_collection?.mp hc)).2.2.1
  identities c hc := (h _ (mem_filterMap_collection?.mp hc)).2.2.2

/-- A change in order counts. -/
theorem size_pos_of_isSound {cs : List Change} (h : ∀ c ∈ cs, c.IsSound identified)
    (hcs : cs ≠ []) :
    0 < (⟨cs.filterMap field?, cs.filterMap collection?⟩ : ChangeRecord).size := by
  obtain ⟨c, hc⟩ := List.exists_mem_of_ne_nil _ hcs
  rw [ChangeRecord.size]
  cases c with
  | field c =>
    have hlength := List.length_pos_of_mem (mem_filterMap_field?.mpr hc)
    dsimp only
    omega
  | collection c =>
    obtain ⟨i, hi⟩ := List.exists_mem_of_ne_nil _ (h _ hc).1
    have hlength := List.length_pos_of_mem
      (List.mem_flatMap.mpr ⟨c, mem_filterMap_collection?.mpr hc, hi⟩)
    exact Nat.add_pos_right _ hlength

end Change

/-! ### Records -/

namespace Rules

variable {rules : Rules} {s t : Option Json} {r : ChangeRecord}

/-- **The records of the built-in rules are well formed.**  Their changes are counted by kind, there
is at least one, and they make up the record again. -/
theorem wellFormed_of_diff {f : Family} (hs : ∀ v ∈ s, v.Canonical) (ht : ∀ v ∈ t, v.Canonical)
    (h : (builtIn f).diff s t = .ok (some r)) :
    r.WellFormed (builtIn f).shape.identified
      ∧ r.size = r.count .added + r.count .removed + r.count .modified ∧ 0 < r.size
      ∧ ChangeRecord.of? r.fields r.collections = some r := by
  have hnames := isAddressable_builtIn f
  have hpaths := Shape.child_ne_empty_of_isAddressable hnames
  obtain ⟨halpha, hfields⟩ :=
    FieldShape.everyObject_object.mp (Shape.isAlphanumeric_of_isAddressable hnames)
  obtain ⟨old, new, hold, hnew, hrecord⟩ := (diff_eq_ok_iff hnames).mp h
  have hfits := fits_canonical hnames (preserves_builtIn f) hs hold
  have hfits' := fits_canonical hnames (preserves_builtIn f) ht hnew
  have hsound : ∀ c ∈ Change.ofFields (builtIn f) "" old.root new.root (builtIn f).shape.fields,
      c.IsSound (builtIn f).shape.identified :=
    Change.isSound_of_mem_fields halpha hfields hpaths fun g hg =>
      Change.isSound_of_mem_ofField (hfields g hg)
        (Shape.exact_or_free_of_hasExactFields (hasExactFields_builtIn f) hg) (hpaths g hg)
        (fun _ => hfits.field hg) fun _ => hfits'.field hg
  have hdistinct := Change.nodup_names hnames old.root new.root
  rw [onePass, Change.record?] at hrecord
  split at hrecord
  · simp at hrecord
  · next hne =>
    obtain rfl := Option.some.inj hrecord
    have hwell := Change.wellFormed_of_isSound hsound hdistinct
    have hsize := Change.size_pos_of_isSound hsound (by simpa using hne)
    exact ⟨hwell, hwell.size_eq_counts, hsize, hwell.of?_self hsize⟩

/-- An address. -/
def addressOf (id city : String) : Json := .obj [("city", .str city), ("id", .str id)]

/-- A user with a barcode and addresses. -/
def housed (barcode : String) (addresses : List Json) : Json :=
  .obj [("barcode", .str barcode), ("personal", .obj [("addresses", .arr addresses)])]

/-- One address changes, one goes and one comes. -/
def moved : ChangeRecord where
  fields := [⟨.modified, "barcode", "barcode", some (.str "1"), some (.str "2")⟩]
  collections := [⟨"personal.addresses",
    [.modified (addressOf "a" "x") (addressOf "a" "y"), .removed (addressOf "b" "x"),
      .added (addressOf "c" "x")]⟩]

theorem wellFormed_of_diff_moved :
    (builtIn .user).diff (some (housed "1" [addressOf "a" "x", addressOf "b" "x"]))
        (some (housed "2" [addressOf "a" "y", addressOf "c" "x"])) = .ok (some moved)
      ∧ moved.WellFormed [("personal.addresses", "id")] ∧ moved.size = 4
      ∧ moved.size = moved.count .added + moved.count .removed + moved.count .modified
      ∧ ChangeRecord.of? moved.fields moved.collections = some moved := by
  have hcanonical : ∀ {barcode id id' city city'},
      (housed barcode [addressOf id city, addressOf id' city']).Canonical := by
    intro barcode id id' city city'
    simp only [housed, addressOf, Json.Canonical, Json.CanonicalMembers, Json.CanonicalItems,
      Table.ascending_iff, List.map_cons, List.map_nil]
    decide
  have hdiff : (builtIn .user).diff (some (housed "1" [addressOf "a" "x", addressOf "b" "x"]))
      (some (housed "2" [addressOf "a" "y", addressOf "c" "x"])) = .ok (some moved) := rfl
  obtain ⟨hwell, hsize, -, hagain⟩ :=
    wellFormed_of_diff (fun v hv => Option.some.inj hv ▸ hcanonical)
      (fun v hv => Option.some.inj hv ▸ hcanonical) hdiff
  exact ⟨hdiff, hwell, rfl, hsize, hagain⟩

end Rules

end SnapshotDiff
