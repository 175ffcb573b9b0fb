import SnapshotDiff.Proofs.Change.Restrict
import SnapshotDiff.Proofs.Change.Sides
import SnapshotDiff.Proofs.Difference.Beneath
import SnapshotDiff.Proofs.Finding.Ignoring
import SnapshotDiff.Proofs.Node.Exact

/-!
# Ignored paths as a filter

Ignored paths are not walked, so that the comparison under them finds less; what it reports is what
is left of the full record.  Changes at other places stay as they are and where they are.  Only a
member that is on both sides takes a closer look: it stays in the record if something was found
beneath it, at any depth, at a place that is not ignored.

## Main definitions

* `Finding.Keeps` — an item change is still told.

## Main results

* `Rules.diff_ignoring` — the record under ignored paths is what is left of the full one.
-/

namespace SnapshotDiff

open SnapshotDiff.Path (outside)
open Finding (sides byKey byIdentity members presentObject? identityKey Beneath)
open Difference (allFindings)

/-! ### Members that are still told -/

/-- The item change of a collection of the root is still told if the given paths are ignored.  A
member that came or left is.  A member that is modified is if a field that differs, or a member that
came or left, was found beneath it outside the ignored paths. -/
def Finding.Keeps (fs : List Finding) (tops : List String) (root : Owner) (name : String)
    (i : ItemChange) : Prop :=
  i.kind = .modified → ∃ self old new, matched ⟨root, name⟩ self old new ∈ fs
    ∧ i = .modified old new
    ∧ ∃ f ∈ fs, Beneath fs self f.holder ∧ f.tells ∧ outside tops f.place

/-- The item change of a collection at a path is still told, as can be seen from the tree. -/
def Difference.Keeps (tops : List String) (o : Owner) (ds : List Difference) (path : String)
    (i : ItemChange) : Prop :=
  i.kind = .modified → ∃ typeName key old new inner,
    twoSided typeName path key old new inner ∈ ds ∧ i = .modified old new
    ∧ ∃ f ∈ allFindings (o.member typeName path key) inner, f.tells ∧ outside tops f.place

/-- Both say the same of the members of the root. -/
theorem Difference.keeps_iff {rootType : String} {root : List Difference} (hroot : Sound root)
    (tops : List String) (path : String) (i : ItemChange) :
    Finding.Keeps (allFindings (.root rootType) root) tops (.root rootType) path i
      ↔ Keeps tops (.root rootType) root path i := by
  -- what a member holds hangs below it
  have hbelow : ∀ {typeName key old new inner}, twoSided typeName path key old new inner ∈ root →
      ((∃ f ∈ allFindings (.root rootType) root,
          Beneath (allFindings (.root rootType) root)
            ((Owner.root rootType).member typeName path key) f.holder
          ∧ f.tells ∧ outside tops f.place)
        ↔ ∃ f ∈ allFindings ((Owner.root rootType).member typeName path key) inner,
          f.tells ∧ outside tops f.place) := by
    intro typeName key old new inner hmem
    simp only [← mem_beneath_iff hroot (Place.root.member hmem), and_assoc]
  constructor
  · intro h hkind
    obtain ⟨self, old, new, hmatched, hi, hf⟩ := h hkind
    obtain ⟨trail, p, es, hplace, d, hd, hhead⟩ := (mem_allFindings_iff hroot).mp hmatched
    cases d with
    | field | oneSided => simp [head, Finding.ofMember] at hhead
    | twoSided typeName path' key old' new' inner =>
      simp only [head, Finding.matched.injEq, Site.mk.injEq] at hhead
      obtain ⟨⟨rfl, rfl⟩, rfl, rfl, rfl⟩ := hhead
      obtain ⟨-, -, rfl⟩ := place_unique hroot .root hplace rfl
      exact ⟨_, _, _, _, _, hd, hi, (hbelow hd).mp hf⟩
  · intro h hkind
    obtain ⟨typeName, key, old, new, inner, hmem, hi, hf⟩ := h hkind
    refine ⟨_, old, new, ?_, hi, (hbelow hmem).mpr hf⟩
    exact (mem_allFindings_iff hroot).mpr ⟨_, _, _, .root, _, hmem, rfl⟩

namespace Change

variable {rules : Rules} {tops : List String} {path : String}

/-! ### Places of changes -/

theorem within_of_mem_difference {s : FieldShape} {name : String} {old new : Option Node}
    (hpath : path ≠ "") {d : Difference} (hd : d ∈ Difference.ofField rules name path old new s) :
    Path.within (Difference.head (.root "") d).place path := by
  have hmem : Difference.head (.root "") d
      ∈ Finding.ofField rules (.root "") name path old new s := by
    rw [Finding.ofField_eq_findings]
    exact Difference.mem_allFindings.mpr ⟨d, hd, Difference.mem_findings_iff.mpr (Or.inl rfl)⟩
  exact Finding.within_of_mem_ofField s hpath _ hmem

/-- What changes of a field lies below it. -/
theorem within_of_mem_ofField {s : FieldShape} (hs : s.everyObject alphanumeric) {name : String}
    {old new : Option Node} (hpath : path ≠ "") {c : Change}
    (hc : c ∈ ofField rules name path old new s) : Path.within c.path path := by
  have hagree : Agree (Path.within · path) (Difference.ofField rules name path old new s)
      (ofField rules name path old new s) := agree_ofField hs hpath
  cases c with
  | field c =>
    have hmem := mem_filterMap_field?.mpr hc
    rw [← hagree.fields] at hmem
    obtain ⟨d, hd, hdc⟩ := List.mem_filterMap.mp hmem
    cases d <;> simp only [Difference.change?, Option.some.injEq, reduceCtorEq] at hdc
    exact hdc ▸ within_of_mem_difference hpath hd
  | collection c => exact hagree.names c (mem_filterMap_collection?.mpr hc)

/-! ### The walk -/

/-- Two objects differ if something is found on them, whatever the objects are taken for. -/
theorem isEmpty_ofFields_iff {fields : List (String × FieldShape)}
    (halpha : alphanumeric (fields.map Prod.fst))
    (hfields : ∀ f ∈ fields, f.2.everyObject alphanumeric) (hpath : path ≠ "") (o : Owner)
    (fs gs : Table Node) : (!(ofFields rules path fs gs fields).isEmpty)
      ↔ ∃ f ∈ Finding.ofFields rules o path fs gs fields, f.tells := by
  have hagree : Agree (fun n => ∃ f ∈ fields, Path.within n (Path.child path f.1))
      (Difference.ofFields rules path fs gs fields) (ofFields rules path fs gs fields) :=
    agree_fields halpha (fun f _ => Path.child_ne_empty_of_ne hpath f.1) fun f hf =>
      agree_ofField (hfields f hf)
  rw [Finding.ofFields_eq_findings, ← Difference.anyTells_iff_findings, hagree.tells]
  simp

/-- Under ignored paths they differ if something is found outside. -/
theorem isEmpty_ofFields_ignoring_iff {fields : List (String × FieldShape)}
    (halpha : alphanumeric (fields.map Prod.fst))
    (hfields : ∀ f ∈ fields, f.2.everyObject alphanumeric) (hpath : path ≠ "") (o : Owner)
    (fs gs : Table Node) : (!(ofFields (rules.ignoring tops) path fs gs fields).isEmpty)
      ↔ ∃ f ∈ Finding.ofFields rules o path fs gs fields, f.tells ∧ outside tops f.place := by
  rw [isEmpty_ofFields_iff halpha hfields hpath o,
    ← Finding.ofFields_ignoring fun f _ => Path.child_ne_empty_of_ne hpath f.1]
  refine exists_congr fun f => ?_
  rw [List.mem_filter, and_assoc, and_comm (a := outside tops f.place = true)]

end Change

namespace Difference

variable {rules : Rules} {tops : List String} {path : String} {o : Owner}

theorem keeps_congr {ds es : List Difference} {i : ItemChange}
    (h : ∀ typeName key old new inner, twoSided typeName path key old new inner ∈ ds
      ↔ twoSided typeName path key old new inner ∈ es) :
    Keeps tops o ds path i ↔ Keeps tops o es path i := by
  simp only [Keeps, h]

/-- The members on both sides of a collection whose members have an identity. -/
theorem twoSided_mem_identified_iff {name typeName typeName' path' identity key : String}
    {fields : List (String × FieldShape)} {old new : Option Node} {v w : Json}
    {inner : List Difference} :
    twoSided typeName' path' key v w inner
        ∈ ofField rules name path old new (.objects typeName fields (some identity))
      ↔ typeName' = typeName ∧ path' = path ∧ ∃ fs gs,
        (key, fs) ∈ byIdentity identity (members old)
        ∧ (key, gs) ∈ byIdentity identity (members new)
        ∧ v = (Node.object fs).json ∧ w = (Node.object gs).json
        ∧ inner = ofFields rules path fs gs fields := by
  rw [ofField]
  constructor
  · intro h
    obtain ⟨k, a, b, ha, hb, hmem⟩ := Finding.exists_of_mem_sides h
    cases a with
    | none => cases b <;> simp [ofSides] at hmem
    | some fs =>
      cases b with
      | none => simp [ofSides] at hmem
      | some gs =>
        cases List.mem_singleton.mp hmem
        exact ⟨rfl, rfl, fs, gs, ha fs rfl, hb gs rfl, rfl, rfl, rfl⟩
  · rintro ⟨rfl, rfl, fs, gs, hfs, hgs, rfl, rfl, rfl⟩
    refine List.mem_append_left _ (List.mem_flatMap.mpr ⟨(key, fs), hfs, ?_⟩)
    have hlookup : (byIdentity identity (members new)).lookup key = some gs :=
      (List.lookup_eq_some_iff_mem (Finding.nodup_keys_byIdentity _ _)).mpr hgs
    simp [hlookup, ofSides]

end Difference

namespace Change

variable {rules : Rules} {tops : List String} {path : String} {keep : String → ItemChange → Bool}
  {P : Json → Prop} {o : Owner}

/-- What has to be shown of a field at a path: if the changes of members are kept as the tree says,
then what is found under ignored paths is what is left of what is found. -/
def IsFiltered (P : Json → Prop) (rules : Rules) (tops : List String) (o : Owner)
    (s : FieldShape) : Prop :=
  ∀ ⦃name path : String⦄ ⦃old new : Option Node⦄ ⦃keep : String → ItemChange → Bool⦄, path ≠ "" →
    outside tops path → (∀ n ∈ old, Node.Fits P s n) → (∀ n ∈ new, Node.Fits P s n) →
    (∀ p, Path.within p path → ∀ i,
      keep p i ↔ Difference.Keeps tops o (Difference.ofField rules name path old new s) p i) →
    ofField (rules.ignoring tops) name path old new s
      = (ofField rules name path old new s).filterMap (restrict (outside tops) keep)

theorem isFiltered_fields {typeName : String} {fields : List (String × FieldShape)}
    {old new : Table Node} (halpha : alphanumeric (fields.map Prod.fst))
    (hfields : ∀ f ∈ fields, f.2.everyObject alphanumeric)
    (hne : ∀ f ∈ fields, Path.child path f.1 ≠ "")
    (ih : ∀ f ∈ fields, IsFiltered P rules tops o f.2)
    (hold : Node.Fits P (.object typeName fields) (.object old))
    (hnew : Node.Fits P (.object typeName fields) (.object new))
    (hkeep : ∀ p, (∃ f ∈ fields, Path.within p (Path.child path f.1)) → ∀ i,
      keep p i ↔ Difference.Keeps tops o (Difference.ofFields rules path old new fields) p i) :
    ofFields (rules.ignoring tops) path old new fields
      = (ofFields rules path old new fields).filterMap (restrict (outside tops) keep) := by
  rw [ofFields_eq_flatMap, ofFields_eq_flatMap, List.filterMap_flatMap]
  refine List.flatMap_congr fun f hf => ?_
  rw [Rules.ignoring_reportable, ← outside]
  cases hreportable : rules.reportable (Path.child path f.1) with
  | false => simp
  | true =>
    cases hout : outside tops (Path.child path f.1) with
    | false =>
      -- of what lies below an ignored path nothing is left
      refine (List.filterMap_eq_nil_iff.mpr fun c hc => restrict_eq_none ?_).symm
      have hbelow := within_of_mem_ofField (hfields f hf) (hne f hf) hc
      by_contra houtside
      rw [Path.outside_of_within hbelow (by simpa using houtside)] at hout
      exact absurd hout (by decide)
    | true =>
      refine ih f hf (hne f hf) hout (fun n hn => hold.field hf hn) (fun n hn => hnew.field hf hn)
        fun p hp i => (hkeep p ⟨f, hf, hp⟩ i).trans (Difference.keeps_congr ?_)
      -- members below the path of this field are members of a collection of this field
      intro typeName key v w inner
      rw [Difference.ofFields_eq_flatMap, List.mem_flatMap]
      constructor
      · rintro ⟨g, hg, hmem⟩
        split at hmem
        · have hpg : Path.within p (Path.child path g.1) :=
            within_of_mem_difference (hne g hg) hmem
          rwa [eq_of_within_fields halpha hg hf hpg hp] at hmem
        · exact absurd hmem List.not_mem_nil
      · intro hmem
        exact ⟨f, hf, by rwa [if_pos hreportable]⟩

/-- The members of an exact collection are modified as the raw comparison says. -/
theorem isFiltered_identified {typeName identity : String} {fields : List (String × FieldShape)}
    (halpha : alphanumeric (fields.map Prod.fst))
    (hfields : ∀ f ∈ fields, f.2.everyObject alphanumeric)
    (hexact : (FieldShape.object typeName fields).isExact) :
    IsFiltered P rules tops o (.objects typeName fields (some identity)) := by
  intro name path old new keep hpath hout hold hnew hkeep
  have holds := Node.Fits.of_mem_members_objects hold
  have hnews := Node.Fits.of_mem_members_objects hnew
  have heq : ∀ {ns : List Node}, (∀ n ∈ ns, Node.Fits P (.object typeName fields) n) →
      ∀ m ∈ byIdentity identity ns, ∀ n ∈ byIdentity identity ns,
        Json.same (Node.object m.2).json (Node.object n.2).json → m = n :=
    fun hns => Node.byIdentity_eq_of_same hexact hns
  have hkey : ∀ {ns : List Node}, (∀ n ∈ ns, Node.Fits P (.object typeName fields) n) →
      ∀ m ∈ byIdentity identity ns, ∀ n ∈ byIdentity identity ns,
        Json.same (Node.object m.2).json (Node.object n.2).json → m.1 = n.1 :=
    fun hns m hm n hn hsame => congrArg Prod.fst (heq hns m hm n hn hsame)
  rw [ofField, ofField, filterMap_restrict_ofItems_of_pairwise hout (ItemChange.pairwise_sides
    (Finding.nodup_keys_byIdentity _ _) (Finding.nodup_keys_byIdentity _ _) (hkey holds)
    (hkey hnews))]
  refine congrArg (ofItems path) (ItemChange.filter_sides (fun i hi => ?_) ?_).symm
  · exact (hkeep path (Path.within_self path) i).mpr fun hkind => absurd hkind hi
  · intro k fs gs hfs hgs
    have hinner := @isEmpty_ofFields_ignoring_iff rules tops path fields halpha hfields hpath
    rw [Bool.eq_iff_iff, Bool.and_eq_true, hkeep path (Path.within_self path)]
    constructor
    · rintro ⟨-, hkeeps⟩
      obtain ⟨_, key, _, _, inner, hmem, hi, hf⟩ := hkeeps rfl
      obtain ⟨rfl, -, fs', gs', hfs', hgs', rfl, rfl, rfl⟩ :=
        Difference.twoSided_mem_identified_iff.mp hmem
      -- the members that were matched are the ones with the values of the change
      simp only [ItemChange.modified, ItemChange.mk.injEq, Option.some.injEq, true_and] at hi
      have hsame : ∀ {v w : Json}, v = w → Json.same v w := fun h => h ▸ Json.same_refl _
      have hfs'' : fs = fs' := congrArg Prod.snd (heq holds _ hfs _ hfs' (hsame hi.1))
      have hgs'' : gs = gs' := congrArg Prod.snd (heq hnews _ hgs _ hgs' (hsame hi.2))
      subst hfs'' hgs''
      rw [← Finding.ofFields_eq_findings] at hf
      exact (hinner _ fs gs).mpr hf
    · intro hdiffer
      obtain ⟨f, hf, htells, houtside⟩ := (hinner (o.member typeName path k) fs gs).mp hdiffer
      refine ⟨(isEmpty_ofFields_iff halpha hfields hpath _ fs gs).mpr ⟨f, hf, htells⟩, fun _ => ?_⟩
      refine ⟨typeName, k, _, _, _, Difference.twoSided_mem_identified_iff.mpr
        ⟨rfl, rfl, fs, gs, hfs, hgs, rfl, rfl, rfl⟩, rfl, f, ?_, htells, houtside⟩
      rwa [← Finding.ofFields_eq_findings]

theorem isFiltered {s : FieldShape} (hs : s.everyObject alphanumeric) (hexact : s.hasExactObjects) :
    IsFiltered P rules tops o s := by
  have hfieldsOnly : ∀ {keep : String → ItemChange → Bool} {cs cs' : List FieldChange},
      cs.filter (fun c => outside tops c.path) = cs' →
        cs'.map field = (cs.map field).filterMap (restrict (outside tops) keep) := by
    rintro keep cs _ rfl
    exact (filterMap_restrict_map_field cs).symm
  -- a member of a set is never modified
  have hsets : ∀ {path : String} {keep : String → ItemChange → Bool} (olds news : List Node),
      outside tops path → (∀ i, i.kind ≠ .modified → keep path i) →
        ofItems path (sides (ItemChange.ofSides Node.json fun _ _ => false) (byKey olds)
          (byKey news))
        = (ofItems path (sides (ItemChange.ofSides Node.json fun _ _ => false) (byKey olds)
          (byKey news))).filterMap (restrict (outside tops) keep) := by
    intro path keep olds news hout hkeep
    refine (filterMap_restrict_ofItems_self hout ?_).symm
    exact ItemChange.filter_sides hkeep fun _ _ _ _ _ => rfl
  induction s using FieldShape.fieldInduction with
  | leaf kind =>
    intro name path old new keep _ hout _ _ _
    rw [ofField, ofField]
    refine hfieldsOnly (List.filter_eq_self.mpr fun c hc => ?_)
    rwa [FieldChange.path_of_mem_ofLeaves hc]
  | object typeName fields ih =>
    intro name path old new keep hpath hout hold hnew hkeep
    obtain ⟨halpha, hfields⟩ := FieldShape.everyObject_object.mp hs
    rw [FieldShape.hasExactObjects, FieldShape.everyElement_object] at hexact
    rw [Difference.ofField.eq_def] at hkeep
    rw [ofField.eq_def, ofField.eq_def]
    dsimp only at hkeep ⊢
    -- which objects are present does not depend on the paths that are ignored
    have hpresent : presentObject? (rules.ignoring tops) path = presentObject? rules path := rfl
    rw [hpresent]
    cases hfs : presentObject? rules path old with
    | none => exact hfieldsOnly (FieldChange.filter_ofValues hout _ _ _)
    | some fs =>
      cases hgs : presentObject? rules path new with
      | none => exact hfieldsOnly (FieldChange.filter_ofValues hout _ _ _)
      | some gs =>
        rw [hfs, hgs] at hkeep
        refine isFiltered_fields halpha hfields (fun f _ => Path.child_ne_empty_of_ne hpath f.1)
          (fun f hf => ih f hf (hfields f hf) (hexact f hf))
          (hold _ (Node.eq_object_of_presentObject? hfs))
          (hnew _ (Node.eq_object_of_presentObject? hgs)) fun p hp => hkeep p ?_
        obtain ⟨f, -, hpf⟩ := hp
        exact Path.within_trans hpf (Path.within_child hpath f.1)
  | leaves kind =>
    intro name path old new keep _ hout _ _ hkeep
    rw [ofField, ofField]
    exact hsets _ _ hout fun i hi =>
      (hkeep path (Path.within_self path) i).mpr fun hkind => absurd hkind hi
  | objects typeName fields identity ih =>
    rw [FieldShape.everyObject_objects] at hs
    obtain ⟨halpha, hfields⟩ := FieldShape.everyObject_object.mp hs
    cases identity with
    | none =>
      intro name path old new keep _ hout _ _ hkeep
      rw [ofField, ofField]
      exact hsets _ _ hout fun i hi =>
        (hkeep path (Path.within_self path) i).mpr fun hkind => absurd hkind hi
    | some identity => exact isFiltered_identified halpha hfields hexact
  | free =>
    intro name path old new keep hpath _ _ _ _
    rw [ofField, ofField]
    exact hfieldsOnly (FieldChange.ofFree_ignoring hpath _ _)

end Change

namespace Rules

variable {rules : Rules} {s t : Option Json}

theorem onePass_ignoring {P : Json → Prop} {old new : Entity} {tops : List String}
    {keep : String → ItemChange → Bool} (hnames : rules.shape.isAddressable)
    (hexact : (FieldShape.object rules.shape.typeName rules.shape.fields).hasExactObjects)
    (hold : old.Fits P rules) (hnew : new.Fits P rules)
    (hkeep : ∀ name i, keep name i ↔ Finding.Keeps (rules.findings old new) tops
      (.root rules.shape.typeName) name i) :
    (rules.ignoring tops).onePass old new
      = (rules.onePass old new).bind (ChangeRecord.restrict (outside tops) keep) := by
  obtain ⟨halpha, hfields⟩ :=
    FieldShape.everyObject_object.mp (Shape.isAlphanumeric_of_isAddressable hnames)
  rw [FieldShape.hasExactObjects, FieldShape.everyElement_object] at hexact
  have htree : Difference.Sound
      (Difference.ofFields rules "" old.root new.root rules.shape.fields) :=
    Difference.sound_ofFields hnames hold hnew
  have hleft : Change.ofFields (rules.ignoring tops) "" old.root new.root rules.shape.fields
      = (Change.ofFields rules "" old.root new.root rules.shape.fields).filterMap
        (Change.restrict (outside tops) keep) := by
    refine Change.isFiltered_fields (P := P) (o := .root rules.shape.typeName) halpha hfields
      (Shape.ne_empty_of_isAddressable hnames)
      (fun f hf => Change.isFiltered (hfields f hf) (hexact f hf)) hold hnew fun p _ i => ?_
    rw [hkeep, findings, Finding.ofFields_eq_findings]
    exact Difference.keeps_iff htree tops p i
  rw [onePass, ignoring_shape, hleft]
  exact Change.record?_filterMap_restrict fun c hc => (Change.isTelling_of_mem_ofFields c hc).1

/-- **Ignored paths are a filter.**  If the field names in every object are distinct and of letters
and digits, none of the root's is empty, and the objects in collections hold neither numbers with a
fraction nor values without a declaration, then to ignore paths changes no error; and where there is
none, it leaves in the record what is not at an ignored path or below one.  That is every change of
such a field; and in every such collection each member that came or left, and each member that is
modified if the raw comparison found, at any depth beneath it, a field that differs or a member that
came or left outside the ignored paths. -/
theorem diff_ignoring (hnames : rules.shape.isAddressable)
    (hexact : (FieldShape.object rules.shape.typeName rules.shape.fields).hasExactObjects)
    (tops : List String) (s t : Option Json) :
    (∀ e, (rules.ignoring tops).diff s t = .error e ↔ rules.diff s t = .error e)
    ∧ ∀ r, rules.diff s t = .ok r → ∃ old new fs keep,
      Entity.ofSnapshot rules s = .ok old ∧ Entity.ofSnapshot rules t = .ok new
      ∧ Finding.between rules old new = .ok fs
      ∧ (∀ name i, keep name i = true
        ↔ Finding.Keeps fs tops (.root rules.shape.typeName) name i)
      ∧ (rules.ignoring tops).diff s t
        = .ok (r.bind (ChangeRecord.restrict (outside tops) keep)) := by
  constructor
  · intro e
    rw [diff_eq_error, diff_eq_error, ofSnapshot_ignoring, ofSnapshot_ignoring]
  · intro r h
    obtain ⟨old, new, hold, hnew, rfl⟩ := (diff_eq_ok_iff hnames).mp h
    classical
    let keep (name : String) (i : ItemChange) : Bool :=
      Finding.Keeps (rules.findings old new) tops (.root rules.shape.typeName) name i
    have hkeep : ∀ name i, keep name i = true ↔ Finding.Keeps (rules.findings old new) tops
        (.root rules.shape.typeName) name i := fun name i => decide_eq_true_iff
    refine ⟨old, new, rules.findings old new, keep, hold, hnew, ?_, hkeep, ?_⟩
    · exact between_eq (Entity.family_of_ofSnapshot hold) (Entity.family_of_ofSnapshot hnew)
    · have hnames' : (rules.ignoring tops).shape.isAddressable := hnames
      refine (diff_eq_ok_iff hnames').mpr ⟨old, new, hold, hnew, ?_⟩
      exact (onePass_ignoring hnames hexact (Entity.fits_of_isAddressable hnames hold)
        (Entity.fits_of_isAddressable hnames hnew) hkeep).symm

end Rules

/-! ### Marked copies -/

namespace Marked

/-- Copies with a label and with marks, which are told apart by their names. -/
def rules : Rules where
  family := .item
  shape := ⟨"Copy", [("label", .leaf .string),
    ("marks", .objects "Mark" (FieldShape.strings ["name", "text", "type"]) (some "name"))]⟩

def mark (name text type : String) : Json :=
  .obj [("name", .str name), ("text", .str text), ("type", .str type)]

def copy (label : String) (marks : List Json) : Json :=
  .obj [("label", .str label), ("marks", .arr marks)]

/-- The label and two marks of a copy differ.  If labels and the texts of marks are ignored, what is
left is the mark whose type differs. -/
theorem diff_ignoring_copy :
    rules.shape.isAddressable
    ∧ (FieldShape.object rules.shape.typeName rules.shape.fields).hasExactObjects
    ∧ ∃ r fs keep,
      rules.diff (some (copy "1" [mark "a" "x" "s", mark "b" "x" "s"]))
        (some (copy "2" [mark "a" "y" "s", mark "b" "x" "t"])) = .ok (some r)
      ∧ r.size = 3
      ∧ (∀ name i, keep name i = true
        ↔ Finding.Keeps fs ["label", "marks.text"] (.root "Copy") name i)
      ∧ (rules.ignoring ["label", "marks.text"]).diff
          (some (copy "1" [mark "a" "x" "s", mark "b" "x" "s"]))
          (some (copy "2" [mark "a" "y" "s", mark "b" "x" "t"]))
        = .ok (r.restrict (outside ["label", "marks.text"]) keep)
      ∧ r.restrict (outside ["label", "marks.text"]) keep
        = some ⟨[], [⟨"marks", [.modified (mark "b" "x" "s") (mark "b" "x" "t")]⟩]⟩ := by
  have hnames : rules.shape.isAddressable := by decide
  have hexact : (FieldShape.object rules.shape.typeName rules.shape.fields).hasExactObjects := by
    decide
  have hfull : rules.diff (some (copy "1" [mark "a" "x" "s", mark "b" "x" "s"]))
      (some (copy "2" [mark "a" "y" "s", mark "b" "x" "t"]))
      = .ok (some ⟨[⟨.modified, "label", "label", some (.str "1"), some (.str "2")⟩],
        [⟨"marks", [.modified (mark "a" "x" "s") (mark "a" "y" "s"),
          .modified (mark "b" "x" "s") (mark "b" "x" "t")]⟩]⟩) := rfl
  have hrun : (rules.ignoring ["label", "marks.text"]).diff
      (some (copy "1" [mark "a" "x" "s", mark "b" "x" "s"]))
      (some (copy "2" [mark "a" "y" "s", mark "b" "x" "t"]))
      = .ok (some ⟨[], [⟨"marks", [.modified (mark "b" "x" "s") (mark "b" "x" "t")]⟩]⟩) := rfl
  obtain ⟨-, hleft⟩ := Rules.diff_ignoring hnames hexact ["label", "marks.text"]
    (some (copy "1" [mark "a" "x" "s", mark "b" "x" "s"]))
    (some (copy "2" [mark "a" "y" "s", mark "b" "x" "t"]))
  obtain ⟨-, -, fs, keep, -, -, -, hkeep, hdiff⟩ := hleft _ hfull
  exact ⟨hnames, hexact, _, fs, keep, hfull, rfl, hkeep, hdiff,
    Except.ok.inj (hdiff.symm.trans hrun)⟩

end Marked

/-! ### Two shapes of which that is not so -/

namespace Unfiltered

/-- Entities whose only field has an empty name. -/
def unnamed : Rules where
  family := .item
  shape := ⟨"Whole", [("", .object "Part" [("x", .leaf .string)])]⟩

def whole (x : String) : Json := .obj [("", .obj [("x", .str x)])]

/-- Entities with a collection whose members are told apart by a collection of numbers. -/
def numbered : Rules where
  family := .item
  shape := ⟨"Scale", [("c", .objects "Mark"
    [("n", .leaves .number), ("x", .leaf .string), ("y", .leaves .number)] (some "n"))]⟩

def zeros (negative : Bool) : Json := .arr [.float (.zero negative)]

def mark (n : Bool) (x : String) (y : Bool) : Json :=
  .obj [("n", zeros n), ("x", .str x), ("y", zeros y)]

def scale (x : String) (y : Bool) : Json :=
  .obj [("c", .arr [mark false x false, mark true x y])]

/-- The field of the empty name has the path of the root, so to ignore that path hides what lies
below, although it does not lie below the path.  And where members have equal values under different
keys, of two changes that are equal the second is told if the first is ignored. -/
theorem not_filtered :
    unnamed.shape.isAlphanumeric
    ∧ unnamed.diff (some (whole "1")) (some (whole "2"))
      = .ok (some ⟨[⟨.modified, "x", "x", some (.str "1"), some (.str "2")⟩], []⟩)
    ∧ outside [""] "x"
    ∧ (unnamed.ignoring [""]).diff (some (whole "1")) (some (whole "2")) = .ok none
    ∧ numbered.shape.isPlain
    ∧ numbered.diff (some (scale "1" false)) (some (scale "2" true))
      = .ok (some ⟨[], [⟨"c", [.modified (mark false "1" false) (mark false "2" false)]⟩]⟩)
    ∧ (∃ old new fs, Entity.ofSnapshot numbered (some (scale "1" false)) = .ok old
      ∧ Entity.ofSnapshot numbered (some (scale "2" true)) = .ok new
      ∧ Finding.between numbered old new = .ok fs
      ∧ (fs.filter (·.tells)).map (fun f => (f.holder.identity, f.place))
        = [("/c[#[0]]", "c.x"), ("/c[#[-0]]", "c.x"), ("/c[#[-0]]", "c.y"), ("/c[#[-0]]", "c.y")])
    ∧ (numbered.ignoring ["c.x"]).diff (some (scale "1" false)) (some (scale "2" true))
      = .ok (some ⟨[], [⟨"c", [.modified (mark true "1" false) (mark true "2" true)]⟩]⟩) :=
  ⟨by decide, rfl, by decide, rfl, by decide, rfl, ⟨_, _, _, rfl, rfl, rfl, rfl⟩, rfl⟩

end Unfiltered

end SnapshotDiff
