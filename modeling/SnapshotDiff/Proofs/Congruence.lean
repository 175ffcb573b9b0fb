import SnapshotDiff.Proofs.Change.Congruence
import SnapshotDiff.Proofs.Change.Sides
import SnapshotDiff.Proofs.Mirror
import SnapshotDiff.Proofs.Node.Exact

/-!
# Snapshots without a difference

If a comparison finds nothing between two snapshots, either of them may stand for the other:
compared with a third snapshot both give records of one outline.  The comparison holds leaves
equal by their keys, empty objects equal to absent ones, collections by the keys or the identities
of their members, and free objects by equality of values; each of these is an equivalence, and the
walk puts them together field by field.

## Main definitions

* `Change.outline` — a change without its values.
* `SameOutcome` — comparisons that fail both, or succeed both with records of one outline.

## Main results

* `Change.outline_perm_ofFields` — what does not differ finds the same changes elsewhere.
* `Rules.diff_builtIn_congr` — that there is no difference is a congruence, for the built-in rules.
-/

namespace SnapshotDiff

open Finding (sides sideKeys byKey byIdentity members presentObject?)

namespace Change

variable {rules : Rules} {path : String}

/-- A change without its values. -/
def outline : Change → (ChangeKind × String) ⊕ (String × (ChangeKind → Nat))
  | field change => .inl change.outline
  | collection change => .inr change.outline

theorem map_outline_field (cs : List FieldChange) :
    (cs.map field).map outline = (cs.map FieldChange.outline).map Sum.inl := by
  rw [List.map_map, List.map_map]
  rfl

theorem field_perm {cs ds : List FieldChange}
    (h : (cs.map FieldChange.outline).Perm (ds.map FieldChange.outline)) :
    ((cs.map field).map outline).Perm ((ds.map field).map outline) := by
  rw [map_outline_field, map_outline_field]
  exact h.map _

theorem ofItems_eq_nil_iff {items : List ItemChange} : ofItems path items = [] ↔ items = [] := by
  unfold ofItems
  split <;> simp_all

/-- The outline of the changes of a collection, if no two of them are equal. -/
theorem outline_ofItems_congr {is js : List ItemChange} (his : is.Pairwise fun i j => ¬i.same j)
    (hjs : js.Pairwise fun i j => ¬i.same j) (h : (is.map (·.kind)).Perm (js.map (·.kind))) :
    (ofItems path is).map outline = (ofItems path js).map outline := by
  have hempty : is.isEmpty = js.isEmpty := by
    rw [← List.isEmpty_map (f := (·.kind)), ← List.isEmpty_map (l := js) (f := (·.kind)),
      h.isEmpty_eq]
  -- as no two changes are equal none is left out, so that the kinds can be counted
  have hcount : ∀ {ks : List ItemChange}, (ks.Pairwise fun i j => ¬i.same j) →
      (ks.foldl CollectionChange.push ⟨path, []⟩).outline
        = (path, fun kind => (ks.map (·.kind)).countP (· = kind)) := by
    intro ks hks
    refine Prod.ext (CollectionChange.name_foldl_push _ _) (funext fun kind => ?_)
    show (ks.foldl CollectionChange.push ⟨path, []⟩).items.countP (·.kind = kind)
      = (ks.map (·.kind)).countP (· = kind)
    rw [CollectionChange.items_foldl_push ks ⟨path, []⟩ hks, List.nil_append, List.countP_map]
    rfl
  have hcounts : (fun kind => (is.map (·.kind)).countP (· = kind))
      = fun kind => (js.map (·.kind)).countP (· = kind) := funext fun kind => h.countP_eq _
  rw [ofItems, ofItems, hempty]
  split
  · rfl
  · rw [List.map_singleton, List.map_singleton, outline, outline, hcount his, hcount hjs, hcounts]

/-! ### The walk -/

section Walk

variable {name : String} {P : Json → Prop}

/-- Members without an identity whose keys agree on two sides. -/
theorem outline_ofItems_sets {s : FieldShape} (hs : s.isExact) {ns ms ks : List Node}
    (hns : ∀ n ∈ ns, Node.Fits P s n) (hms : ∀ m ∈ ms, Node.Fits P s m)
    (hks : ∀ k ∈ ks, Node.Fits P s k)
    (h : sides (ItemChange.ofSides Node.json fun _ _ => false) (byKey ns) (byKey ms) = []) :
    (ofItems path (sides (ItemChange.ofSides Node.json fun _ _ => false) (byKey ns) (byKey ks))).map
        outline
      = (ofItems path (sides (ItemChange.ofSides Node.json fun _ _ => false) (byKey ms)
          (byKey ks))).map outline := by
  have hkey : ∀ {ls : List Node}, (∀ l ∈ ls, Node.Fits P s l) → ∀ m ∈ byKey ls, ∀ n ∈ byKey ls,
      Json.same m.2.json n.2.json → m.1 = n.1 := fun hls => Node.byKey_eq_of_same hs hls
  have hnodup := Finding.nodup_keys_byKey
  refine outline_ofItems_congr ?_ ?_ ?_
  · exact ItemChange.pairwise_sides (hnodup ns) (hnodup ks) (hkey hns) (hkey hks)
  · exact ItemChange.pairwise_sides (hnodup ms) (hnodup ks) (hkey hms) (hkey hks)
  · exact ItemChange.kinds_perm_sides (hnodup ns) (hnodup ms) (hnodup ks) h
      fun _ _ _ _ _ _ _ _ => rfl

/-- What has to be shown of a field: where two nodes do not differ, they find the same changes
beside any third node. -/
def FieldCongruent (rules : Rules) (s : FieldShape) : Prop :=
  ∀ {name path : String} {n m k : Option Node}, (∀ x ∈ n, Node.Fits Json.Canonical s x) →
    (∀ x ∈ m, Node.Fits Json.Canonical s x) → (∀ x ∈ k, Node.Fits Json.Canonical s x) →
      ofField rules name path n m s = [] →
        ((ofField rules name path n k s).map outline).Perm
          ((ofField rules name path m k s).map outline)

/-- Objects can stand for each other if their fields can. -/
theorem outline_perm_of_fields {typeName : String} {fields : List (String × FieldShape)}
    (ih : ∀ f ∈ fields, FieldCongruent rules f.2) {fs gs hs : Table Node}
    (hfs : Node.Fits Json.Canonical (.object typeName fields) (.object fs))
    (hgs : Node.Fits Json.Canonical (.object typeName fields) (.object gs))
    (hhs : Node.Fits Json.Canonical (.object typeName fields) (.object hs))
    (h : ofFields rules path fs gs fields = []) :
    ((ofFields rules path fs hs fields).map outline).Perm
      ((ofFields rules path gs hs fields).map outline) := by
  rw [ofFields_eq_flatMap, List.flatMap_eq_nil_iff] at h
  rw [ofFields_eq_flatMap, ofFields_eq_flatMap, List.map_flatMap, List.map_flatMap]
  refine List.Perm.flatMap_left _ fun f hf => ?_
  have hfield := h f hf
  split
  · next hreport =>
    rw [if_pos hreport] at hfield
    exact ih f hf (fun x hx => hfs.field hf hx) (fun x hx => hgs.field hf hx)
      (fun x hx => hhs.field hf hx) hfield
  · exact .refl _

/-- Members with an identity that agree on two sides. -/
theorem outline_ofItems_objects {typeName identity : String} {fields : List (String × FieldShape)}
    (hexact : (FieldShape.object typeName fields).isExact)
    (ih : ∀ f ∈ fields, FieldCongruent rules f.2) {ns ms ks : List Node}
    (hns : ∀ n ∈ ns, Node.Fits Json.Canonical (.object typeName fields) n)
    (hms : ∀ m ∈ ms, Node.Fits Json.Canonical (.object typeName fields) m)
    (hks : ∀ k ∈ ks, Node.Fits Json.Canonical (.object typeName fields) k)
    (h : sides (ItemChange.ofSides (fun fs => (Node.object fs).json) fun fs gs =>
      !(ofFields rules path fs gs fields).isEmpty) (byIdentity identity ns) (byIdentity identity ms)
        = []) :
    (ofItems path (sides (ItemChange.ofSides (fun fs => (Node.object fs).json) fun fs gs =>
        !(ofFields rules path fs gs fields).isEmpty) (byIdentity identity ns)
          (byIdentity identity ks))).map outline
      = (ofItems path (sides (ItemChange.ofSides (fun fs => (Node.object fs).json) fun fs gs =>
        !(ofFields rules path fs gs fields).isEmpty) (byIdentity identity ms)
          (byIdentity identity ks))).map outline := by
  have hfits : ∀ {ls : List Node},
      (∀ l ∈ ls, Node.Fits Json.Canonical (.object typeName fields) l) →
        ∀ m ∈ byIdentity identity ls,
          Node.Fits Json.Canonical (.object typeName fields) (.object m.2) :=
    fun hls m hm => hls _ (Node.exists_of_mem_byIdentity hm).1
  have hkey : ∀ {ls : List Node},
      (∀ l ∈ ls, Node.Fits Json.Canonical (.object typeName fields) l) →
        ∀ m ∈ byIdentity identity ls, ∀ n ∈ byIdentity identity ls,
          Json.same (Node.object m.2).json (Node.object n.2).json → m.1 = n.1 := by
    intro ls hls m hm n hn hsame
    rw [Node.byIdentity_eq_of_same hexact hls m hm n hn hsame]
  have hnodup := Finding.nodup_keys_byIdentity identity
  refine outline_ofItems_congr ?_ ?_ ?_
  · exact ItemChange.pairwise_sides (hnodup ns) (hnodup ks) (hkey hns) (hkey hks)
  · exact ItemChange.pairwise_sides (hnodup ms) (hnodup ks) (hkey hms) (hkey hks)
  · apply ItemChange.kinds_perm_sides (hnodup ns) (hnodup ms) (hnodup ks) h
    intro k fs gs hs hfs hgs hhs hsame
    -- members under one identity do not differ, so beside a third one both differ or neither does
    have hnil : ofFields rules path fs gs fields = [] := by simpa using hsame
    have hperm :=
      outline_perm_of_fields ih (hfits hns _ hfs) (hfits hms _ hgs) (hfits hks _ hhs) hnil
    have hempty := hperm.isEmpty_eq
    rw [List.isEmpty_map, List.isEmpty_map] at hempty
    rw [hempty]

/-- **Fields that do not differ can stand for each other.** -/
theorem outline_perm_ofField {s : FieldShape} (hs : s.hasExactMembers) :
    FieldCongruent rules s := by
  induction s using FieldShape.fieldInduction with
  | leaf kind =>
    intro name path n m k _ _ _ h
    rw [ofField, List.map_eq_nil_iff] at h
    rw [ofField, ofField]
    exact field_perm (.of_eq (FieldChange.ofLeaves_congr h))
  | object typeName fields ih =>
    intro name path n m k hn hm hk h
    rw [FieldShape.hasExactMembers, FieldShape.everyElement_object] at hs
    rw [ofField.eq_def] at h
    rw [ofField.eq_def, ofField.eq_def]
    dsimp only at h ⊢
    -- of an object that came or left the outline tells that it did, and not what was in it
    have hvalues : ∀ {a b c : Option Json}, a.isSome = b.isSome →
        ((FieldChange.ofValues name path a c false).map field).map outline
          = ((FieldChange.ofValues name path b c false).map field).map outline := by
      intro a b c hab
      rw [map_outline_field, map_outline_field,
        FieldChange.outline_ofValues_congr hab fun _ _ => rfl]
    cases hfs : presentObject? rules path n with
    | none =>
      cases hgs : presentObject? rules path m with
      | none => exact .refl _
      | some gs => simp [hfs, hgs, FieldChange.ofValues] at h
    | some fs =>
      cases hgs : presentObject? rules path m with
      | none => simp [hfs, hgs, FieldChange.ofValues] at h
      | some gs =>
        cases hhs : presentObject? rules path k with
        | none => exact .of_eq (hvalues rfl)
        | some hs' =>
          rw [hfs, hgs] at h
          exact outline_perm_of_fields (fun f hf => ih f hf (hs f hf))
            (hn _ (Node.eq_object_of_presentObject? hfs))
            (hm _ (Node.eq_object_of_presentObject? hgs))
            (hk _ (Node.eq_object_of_presentObject? hhs)) h
  | leaves kind =>
    intro name path n m k hn hm hk h
    rw [ofField, ofItems_eq_nil_iff] at h
    rw [ofField, ofField]
    exact .of_eq (outline_ofItems_sets (s := .leaf kind) hs (Node.Fits.of_mem_members_leaves hn)
      (Node.Fits.of_mem_members_leaves hm) (Node.Fits.of_mem_members_leaves hk) h)
  | objects typeName fields identity ih =>
    intro name path n m k hn hm hk h
    have hexact : (FieldShape.object typeName fields).isExact := hs
    have hns := Node.Fits.of_mem_members_objects hn
    have hms := Node.Fits.of_mem_members_objects hm
    have hks := Node.Fits.of_mem_members_objects hk
    cases identity with
    | none =>
      rw [ofField, ofItems_eq_nil_iff] at h
      rw [ofField, ofField]
      exact .of_eq (outline_ofItems_sets hexact hns hms hks h)
    | some identity =>
      rw [ofField, ofItems_eq_nil_iff] at h
      rw [ofField, ofField]
      have hfields : ∀ f ∈ fields, FieldCongruent rules f.2 := by
        intro f hf name path n m k
        have hmembers := FieldShape.hasExactMembers_of_isExact (FieldShape.areExact_iff.mp hs f hf)
        exact ih f hf hmembers
      exact .of_eq (outline_ofItems_objects hexact hfields hns hms hks h)
  | free =>
    intro name path n m k hn hm hk h
    rw [ofField, List.map_eq_nil_iff] at h
    rw [ofField, ofField]
    exact field_perm (FieldChange.ofFree_congr (Node.Fits.canonical_free hn)
      (Node.Fits.canonical_free hm) (Node.Fits.canonical_free hk) h)

/-- **Objects that do not differ can stand for each other.** -/
theorem outline_perm_ofFields {typeName : String} {fields : List (String × FieldShape)}
    (hs : (FieldShape.object typeName fields).hasExactMembers) {fs gs hs' : Table Node}
    (hfs : Node.Fits Json.Canonical (.object typeName fields) (.object fs))
    (hgs : Node.Fits Json.Canonical (.object typeName fields) (.object gs))
    (hhs : Node.Fits Json.Canonical (.object typeName fields) (.object hs'))
    (h : ofFields rules path fs gs fields = []) :
    ((ofFields rules path fs hs' fields).map outline).Perm
      ((ofFields rules path gs hs' fields).map outline) := by
  rw [FieldShape.hasExactMembers, FieldShape.everyElement_object] at hs
  exact outline_perm_of_fields (fun f hf => outline_perm_ofField (hs f hf)) hfs hgs hhs h

/-! ### Nothing against itself -/

theorem ofFields_self_of_fields {typeName : String} {fields : List (String × FieldShape)}
    (ih : ∀ f ∈ fields, ∀ {name path : String} {n : Option Node},
      (∀ x ∈ n, Node.Fits Json.Canonical f.2 x) → ofField rules name path n n f.2 = [])
    {fs : Table Node} (hfs : Node.Fits Json.Canonical (.object typeName fields) (.object fs)) :
    ofFields rules path fs fs fields = [] := by
  rw [ofFields_eq_flatMap, List.flatMap_eq_nil_iff]
  intro f hf
  split
  · exact ih f hf fun x hx => hfs.field hf hx
  · rfl

theorem ofField_self (s : FieldShape) : ∀ {name path : String} {n : Option Node},
    (∀ x ∈ n, Node.Fits Json.Canonical s x) → ofField rules name path n n s = [] := by
  induction s using FieldShape.fieldInduction with
  | leaf kind =>
    intro name path n _
    rw [ofField, FieldChange.ofLeaves_self]
    rfl
  | object typeName fields ih =>
    intro name path n hn
    rw [ofField.eq_def]
    dsimp only
    cases hfs : presentObject? rules path n with
    | none => rfl
    | some fs => exact ofFields_self_of_fields ih (hn _ (Node.eq_object_of_presentObject? hfs))
  | leaves kind =>
    intro name path n _
    rw [ofField, ofItems_eq_nil_iff]
    exact ItemChange.sides_self (Finding.nodup_keys_byKey _) fun _ _ => rfl
  | objects typeName fields identity ih =>
    intro name path n hn
    cases identity with
    | none =>
      rw [ofField, ofItems_eq_nil_iff]
      exact ItemChange.sides_self (Finding.nodup_keys_byKey _) fun _ _ => rfl
    | some identity =>
      rw [ofField, ofItems_eq_nil_iff]
      refine ItemChange.sides_self (Finding.nodup_keys_byIdentity _ _) fun m hm => ?_
      have hfits := Node.Fits.of_mem_members_objects hn _ (Node.exists_of_mem_byIdentity hm).1
      rw [ofFields_self_of_fields ih hfits]
      rfl
  | free =>
    intro name path n hn
    rw [ofField, FieldChange.ofFree_self (Node.Fits.canonical_free hn)]
    rfl

end Walk

/-! ### Records -/

theorem getD_record? (cs : List Change) :
    (record? cs).getD .nothing = ⟨cs.filterMap field?, cs.filterMap collection?⟩ := by
  cases cs with
  | nil => rfl
  | cons c cs => rfl

/-- Changes of one outline make records of one outline. -/
theorem sameOutline_of_perm {cs ds : List Change} (h : (cs.map outline).Perm (ds.map outline)) :
    ((record? cs).getD .nothing).SameOutline ((record? ds).getD .nothing) := by
  have hfields : ∀ cs : List Change, (cs.filterMap field?).map FieldChange.outline
      = (cs.map outline).filterMap Sum.getLeft? := by
    intro cs
    rw [List.filterMap_map, List.map_filterMap]
    refine List.filterMap_congr fun c _ => ?_
    cases c <;> rfl
  have hcollections : ∀ cs : List Change, (cs.filterMap collection?).map CollectionChange.outline
      = (cs.map outline).filterMap Sum.getRight? := by
    intro cs
    rw [List.filterMap_map, List.map_filterMap]
    refine List.filterMap_congr fun c _ => ?_
    cases c <;> rfl
  rw [getD_record?, getD_record?]
  constructor
  · rw [hfields, hfields]
    exact h.filterMap _
  · rw [hcollections, hcollections]
    exact h.filterMap _

end Change

/-! ### Comparisons -/

/-- The comparisons fail both, or they succeed both with records of one outline, where no record
counts as one without changes. -/
def SameOutcome : (x y : Except DiffError (Option ChangeRecord)) → Prop
  | .ok r, .ok r' => (r.getD .nothing).SameOutline (r'.getD .nothing)
  | .error _, .error _ => True
  | _, _ => False

/-- An outcome that shares its outline with no record is no record, unless it tells nothing. -/
theorem SameOutcome.eq_ok_none {x : Except DiffError (Option ChangeRecord)}
    (h : SameOutcome x (.ok none)) (hx : ∀ r, x = .ok (some r) → r ≠ .nothing) : x = .ok none := by
  match x with
  | .error _ => exact absurd h (by simp [SameOutcome])
  | .ok none => rfl
  | .ok (some r) => exact absurd (ChangeRecord.SameOutline.eq_nothing h) (hx r rfl)

theorem SameOutcome.symm {x y : Except DiffError (Option ChangeRecord)} (h : SameOutcome x y) :
    SameOutcome y x := by
  cases x with
  | error e =>
    cases y with
    | error e' => trivial
    | ok r' => exact h
  | ok r =>
    cases y with
    | error e' => exact h
    | ok r' => exact ChangeRecord.SameOutline.symm h

namespace Rules

variable {rules : Rules} {s s' t : Option Json}

/-- A comparison with a snapshot that cannot be read fails. -/
theorem exists_diff_eq_error {e : DiffError} (ht : Entity.ofSnapshot rules t = .error e) :
    (∃ e', rules.diff s t = .error e') ∧ ∃ e', rules.diff t s = .error e' := by
  have hno : ∀ {u v : Option Json} {r : Option ChangeRecord}, u = t ∨ v = t →
      rules.diff u v ≠ .ok r := by
    intro u v r huv hok
    obtain ⟨old, new, hold, hnew, -⟩ := diff_eq_ok.mp hok
    rcases huv with rfl | rfl
    · rw [ht] at hold
      cases hold
    · rw [ht] at hnew
      cases hnew
  constructor
  · cases h : rules.diff s t with
    | error e' => exact ⟨e', rfl⟩
    | ok r => exact absurd h (hno (Or.inr rfl))
  · cases h : rules.diff t s with
    | error e' => exact ⟨e', rfl⟩
    | ok r => exact absurd h (hno (Or.inl rfl))

/-- There is a record only where there is something to tell. -/
theorem ne_nothing_of_diff {r : ChangeRecord} (h : rules.diff s t = .ok (some r)) :
    r ≠ .nothing := by
  obtain ⟨old, new, -, -, hr⟩ := diff_eq_ok.mp h
  have hempty := ChangeRecord.isEmpty_of_of? hr.symm
  rintro rfl
  cases hempty

/-! ### No difference as a congruence -/

section Congruence

variable (hs : rules.shape.isAddressable) (hrules : rules.Preserves Json.Canonical)
  (hexact : (FieldShape.object rules.shape.typeName rules.shape.fields).hasExactMembers)
include hs hrules

theorem fits_canonical (hsnapshot : ∀ v ∈ s, v.Canonical) {e : Entity}
    (he : Entity.ofSnapshot rules s = .ok e) : e.Fits Json.Canonical rules :=
  Entity.fits_ofSnapshot Json.hereditary_canonical (Shape.isAlphanumeric_of_isAddressable hs) hrules
    hsnapshot he

/-- **A snapshot does not differ from itself.** -/
theorem diff_self (hsnapshot : ∀ v ∈ s, v.Canonical) {e : Entity}
    (he : Entity.ofSnapshot rules s = .ok e) : rules.diff s s = .ok none := by
  have hfits := fits_canonical hs hrules hsnapshot he
  have hnil : Change.ofFields rules "" e.root e.root rules.shape.fields = [] :=
    Change.ofFields_self_of_fields (fun f _ => Change.ofField_self f.2) hfits
  refine (diff_eq_ok_iff hs).mpr ⟨e, e, he, he, ?_⟩
  rw [onePass, hnil]
  rfl

include hexact

/-- **Snapshots that do not differ can stand for each other on the old side.** -/
theorem sameOutcome_left (hsnapshot : ∀ v ∈ s, v.Canonical) (hsnapshot' : ∀ v ∈ s', v.Canonical)
    (ht : ∀ v ∈ t, v.Canonical) (h : rules.diff s s' = .ok none) :
    SameOutcome (rules.diff s t) (rules.diff s' t) := by
  obtain ⟨a, a', ha, ha', hnone⟩ := (diff_eq_ok_iff hs).mp h
  have hnil : Change.ofFields rules "" a.root a'.root rules.shape.fields = [] := by
    by_contra hne
    rw [onePass, Change.record?, if_neg (by simpa using hne)] at hnone
    cases hnone
  cases hb : Entity.ofSnapshot rules t with
  | error e =>
    obtain ⟨⟨e₁, he₁⟩, -⟩ := exists_diff_eq_error (s := s) hb
    obtain ⟨⟨e₂, he₂⟩, -⟩ := exists_diff_eq_error (s := s') hb
    rw [he₁, he₂]
    trivial
  | ok b =>
    rw [(diff_eq_ok_iff hs).mpr ⟨a, b, ha, hb, rfl⟩, (diff_eq_ok_iff hs).mpr ⟨a', b, ha', hb, rfl⟩]
    exact Change.sameOutline_of_perm (Change.outline_perm_ofFields hexact
      (fits_canonical hs hrules hsnapshot ha) (fits_canonical hs hrules hsnapshot' ha')
      (fits_canonical hs hrules ht hb) hnil)

/-- **Snapshots that do not differ can stand for each other on the new side**, because the
comparison the other way round has the outline back. -/
theorem sameOutcome_right (hsnapshot : ∀ v ∈ s, v.Canonical) (hsnapshot' : ∀ v ∈ s', v.Canonical)
    (ht : ∀ v ∈ t, v.Canonical) (h : rules.diff s s' = .ok none) :
    SameOutcome (rules.diff t s) (rules.diff t s') := by
  have hleft := sameOutcome_left hs hrules hexact hsnapshot hsnapshot' ht h
  -- the comparison from `t` is the mirror of the one to `t`, for either snapshot
  have hback : ∀ {u : Option Json}, (∀ v ∈ u, v.Canonical) → ∀ {r r' : Option ChangeRecord},
      rules.diff u t = .ok r → rules.diff t u = .ok r' →
        ((r.getD .nothing).swap).SameOutline (r'.getD .nothing) := by
    intro u hu r r' hr hr'
    have hrel := ChangeRecord.sameOutline_of_rel
      (rel_swap_of_diff_eq_ok (Shape.isAlphanumeric_of_isAddressable hs) hrules hu ht hr hr')
    cases r with
    | none => exact hrel
    | some r => exact hrel
  obtain ⟨a, a', ha, ha', -⟩ := diff_eq_ok.mp h
  cases hb : Entity.ofSnapshot rules t with
  | error e =>
    obtain ⟨-, e₁, he₁⟩ := exists_diff_eq_error (s := s) hb
    obtain ⟨-, e₂, he₂⟩ := exists_diff_eq_error (s := s') hb
    rw [he₁, he₂]
    trivial
  | ok b =>
    have hforth : rules.diff s t = .ok (rules.onePass a b) :=
      (diff_eq_ok_iff hs).mpr ⟨a, b, ha, hb, rfl⟩
    have hforth' : rules.diff s' t = .ok (rules.onePass a' b) :=
      (diff_eq_ok_iff hs).mpr ⟨a', b, ha', hb, rfl⟩
    have hrev : rules.diff t s = .ok (rules.onePass b a) :=
      (diff_eq_ok_iff hs).mpr ⟨b, a, hb, ha, rfl⟩
    have hrev' : rules.diff t s' = .ok (rules.onePass b a') :=
      (diff_eq_ok_iff hs).mpr ⟨b, a', hb, ha', rfl⟩
    -- the record from `t` to `s` is turned round, carried over to `s'`, and turned round again
    have hmirror := hback hsnapshot hforth hrev
    have hmirror' := hback hsnapshot' hforth' hrev'
    rw [hforth, hforth'] at hleft
    rw [hrev, hrev']
    have hswap := ChangeRecord.SameOutline.swap hleft
    exact (hmirror.symm.trans hswap).trans hmirror'

end Congruence

/-- **That there is no difference is a congruence** for the built-in rules: a snapshot that can be
read does not differ from itself, and where two snapshots do not differ, nor do they the other way
round, and each can stand for the other on either side of a comparison. -/
theorem diff_builtIn_congr (f : Family) :
    (∀ s e, (∀ v ∈ s, v.Canonical) → Entity.ofSnapshot (builtIn f) s = .ok e →
      (builtIn f).diff s s = .ok none)
    ∧ ∀ s s', (∀ v ∈ s, v.Canonical) → (∀ v ∈ s', v.Canonical) → (builtIn f).diff s s' = .ok none →
      (builtIn f).diff s' s = .ok none
      ∧ ∀ t, (∀ v ∈ t, v.Canonical) →
        SameOutcome ((builtIn f).diff s t) ((builtIn f).diff s' t)
        ∧ SameOutcome ((builtIn f).diff t s) ((builtIn f).diff t s')
        ∧ ((builtIn f).diff s' t = .ok none → (builtIn f).diff s t = .ok none) := by
  have hnames := isAddressable_builtIn f
  have hcanonical := preserves_builtIn f
  have hexact := hasExactMembers_builtIn f
  refine ⟨fun s e hs he => diff_self hnames hcanonical hs he, fun s s' hs hs' h => ⟨?_, ?_⟩⟩
  · obtain ⟨e, -, he, -⟩ := diff_eq_ok.mp h
    have hself := diff_self hnames hcanonical hs he
    -- `s'` against `s` has the outline of `s` against itself, which is that of no record
    have hleft := sameOutcome_left hnames hcanonical hexact hs hs' hs h
    rw [hself] at hleft
    exact hleft.symm.eq_ok_none fun r hr => ne_nothing_of_diff hr
  · intro t ht
    have hleft := sameOutcome_left hnames hcanonical hexact hs hs' ht h
    refine ⟨hleft, sameOutcome_right hnames hcanonical hexact hs hs' ht h, fun hnone => ?_⟩
    rw [hnone] at hleft
    exact hleft.eq_ok_none fun r hr => ne_nothing_of_diff hr

/-- An item with captions of years. -/
def captions (years : List String) : Json :=
  .obj [("barcode", .str "1"), ("yearCaption", .arr (years.map .str))]

theorem diff_builtIn_congr_item :
    ∃ r r',
      (builtIn .item).diff (some (captions ["1", "2"])) (some (captions ["2", "1", "2"]))
        = .ok none
      ∧ (builtIn .item).diff (some (captions ["1", "2"])) (some (captions ["3"])) = .ok (some r)
      ∧ (builtIn .item).diff (some (captions ["2", "1", "2"])) (some (captions ["3"]))
        = .ok (some r')
      ∧ r.size = 3 ∧ r.SameOutline r' := by
  have hcanonical : ∀ years, ∀ v ∈ some (captions years), v.Canonical := by
    intro years v hv
    rw [← Option.some.inj hv, captions, Json.canonical_obj_iff]
    refine ⟨Table.ascending_iff.mpr ?_, fun m hm => ?_⟩
    · show ["barcode", "yearCaption"].Pairwise (· < ·)
      decide
    · rcases List.mem_cons.mp hm with rfl | hm
      · trivial
      · rw [List.mem_singleton.mp hm, Json.canonical_arr_iff]
        intro w hw
        obtain ⟨year, -, rfl⟩ := List.mem_map.mp hw
        trivial
  have hsame := (diff_builtIn_congr .item).2 (some (captions ["1", "2"]))
    (some (captions ["2", "1", "2"])) (hcanonical _) (hcanonical _) rfl
  exact ⟨_, _, rfl, rfl, rfl, rfl, (hsame.2 (some (captions ["3"])) (hcanonical _)).1⟩

end Rules

end SnapshotDiff
