import SnapshotDiff.Proofs.Change.Items
import SnapshotDiff.Proofs.Comparison
import SnapshotDiff.Proofs.Correlation.Groups
import SnapshotDiff.Proofs.Node.Carries
import SnapshotDiff.Proofs.Node.Members

/-!
# The values that a record shows

Every value in a record was shown by a finding, and every finding shows values of the two entities:
a leaf, a whole object, a member of a collection, or an entry of a free object that is not `null`.
So no value in a record is `null`, and the values have what the snapshots have.  This holds for all
rules, whatever names the shape has and however its members are identified.

## Main definitions

* `ChangeRecord.values`, `Finding.values` — the values that are shown.
* `Json.Present` — a value is not `null` and has a property.

## Main results

* `Finding.shows_of_mem_ofField` — findings show values of the two entities.
* `Correlation.exists_finding_of_mem_values` — records show values of findings.
* `Rules.present_of_diff` — **no value in a record is `null`.**
-/

namespace SnapshotDiff

/-- The value is not `null` and has the property. -/
def Json.Present (P : Json → Prop) (v : Json) : Prop := v ≠ null ∧ P v

/-- The values that the change shows. -/
def FieldChange.values (c : FieldChange) : List Json := c.old.toList ++ c.new.toList

/-- The values that the change shows. -/
def ItemChange.values (i : ItemChange) : List Json := i.old.toList ++ i.new.toList

/-- The values that the changes show. -/
def ChangeRecord.values (r : ChangeRecord) : List Json :=
  r.fields.flatMap FieldChange.values ++ r.items.flatMap ItemChange.values

namespace Finding

/-- The values that the finding shows. -/
def values : Finding → List Json
  | field _ change => change.values
  | member _ _ _ value => [value]
  | matched _ _ old new => [old, new]

/-- The values that the finding shows are not `null` and have the property. -/
def Shows (P : Json → Prop) (f : Finding) : Prop := ∀ v ∈ f.values, v.Present P

variable {P : Json → Prop} {rules : Rules} {o : Owner} {name path typeName : String} {f : Finding}

/-! ### Fields -/

theorem shows_of_mem_ofValues {old new : Option Json} {equal : Bool}
    (hold : ∀ v ∈ old, v.Present P) (hnew : ∀ v ∈ new, v.Present P)
    (hf : f ∈ ofValues o name path old new equal) : f.Shows P := by
  rw [ofValues] at hf
  split at hf
  · rw [List.mem_singleton.mp hf]
    intro v hv
    rcases List.mem_append.mp hv with hv | hv
    · exact hold v (Option.mem_toList.mp hv)
    · exact hnew v (Option.mem_toList.mp hv)
  · exact absurd hf List.not_mem_nil

/-- Two values of a free object that are not both objects are shown as wholes. -/
theorem shows_of_mem_ofFreeValues_of_not_objects {old new : Option Json}
    (hobjects : ∀ ms ns, old = some (.obj ms) → new = some (.obj ns) → False)
    (hold : ∀ v ∈ old, v.Present P) (hnew : ∀ v ∈ new, v.Present P)
    (hf : f ∈ ofFreeValues rules o name path old new) : f.Shows P := by
  rw [ofFreeValues] at hf
  · exact shows_of_mem_ofValues hold hnew hf
  · exact hobjects

theorem present_of_present? {entries : Table Json} {a : Option Json} {k : String}
    (hentries : ∀ m ∈ entries, P m.2) (ha : ∀ v ∈ a, (k, v) ∈ entries) :
    ∀ v ∈ present? a, v.Present P := by
  intro v hv
  obtain ⟨hav, hnull⟩ := present?_eq_some_iff.mp hv
  exact ⟨hnull, hentries _ (ha v hav)⟩

theorem shows_of_mem_ofFreeValues (hP : Json.Local P) (v : Json) (w : Option Json) :
    v.Present P → (∀ x ∈ w, x.Present P) → ∀ {name path : String},
      f ∈ ofFreeValues rules o name path (some v) w → f.Shows P := by
  induction v, w using Json.pairInduction with
  | others v w hobjects =>
    intro hv hw name path hf
    exact shows_of_mem_ofFreeValues_of_not_objects hobjects
      (fun x hx => Option.some.inj hx ▸ hv) hw hf
  | objects ms ns ih =>
    intro hv hw name path hf
    rw [ofFreeValues, ofFree_eq_sides] at hf
    obtain ⟨k, a, b, ha, hb, hf⟩ := exists_of_mem_sides hf
    -- what is under a key of either object is an entry of it, unless it is `null`
    have hold := present_of_present? (hP.entries hv.2) ha
    have hnew := present_of_present? (hP.entries (hw _ rfl).2) hb
    rw [ofFreeSides] at hf
    split at hf
    · cases hpresent : present? a with
      | none =>
        rw [hpresent] at hf hold
        exact shows_of_mem_ofFreeValues_of_not_objects (fun _ _ h => by cases h) hold hnew hf
      | some v =>
        rw [hpresent] at hf hold
        exact ih (k, v) (ha v (present?_eq_some_iff.mp hpresent).1) _ (hold v rfl) hnew hf
    · exact absurd hf List.not_mem_nil

/-! ### Parts of an entity -/

theorem present_leaf? {n : Option Node} (hn : ∀ m ∈ n, m.Carries P) :
    ∀ v ∈ (n.bind Node.leaf?).map Prod.fst, v.Present P := by
  intro v hv
  obtain ⟨⟨raw, k⟩, hleaf, rfl⟩ := Option.map_eq_some_iff.mp hv
  obtain ⟨m, hm, hleaf⟩ := Option.bind_eq_some_iff.mp hleaf
  cases hn m hm with
  | leaf present value =>
    obtain ⟨rfl, -⟩ := Prod.mk.inj (Option.some.inj hleaf)
    exact ⟨present, value⟩
  | object | collection | free => simp [Node.leaf?] at hleaf

theorem carries_presentObject? {n : Option Node} (hn : ∀ m ∈ n, m.Carries P) {fs : Table Node}
    (hfs : presentObject? rules path n = some fs) : (Node.object fs).Carries P :=
  hn _ (Node.eq_object_of_presentObject? hfs)

theorem carries_members {n : Option Node} (hn : ∀ m ∈ n, m.Carries P) :
    ∀ m ∈ members n, m.Carries P := by
  intro m hm
  cases hc : n.bind Node.collection? with
  | none => simp [members, hc] at hm
  | some ns =>
    rw [members, hc, Option.getD_some] at hm
    obtain ⟨c, hcn, hc⟩ := Option.bind_eq_some_iff.mp hc
    have hcarries := hn c hcn
    cases c with
    | collection ns' =>
      obtain rfl := Option.some.inj hc
      exact hcarries.member hm
    | leaf | object | free => simp [Node.collection?] at hc

theorem carries_free? (hP : Json.Local P) {n : Option Node} (hn : ∀ m ∈ n, m.Carries P) :
    P (.obj ((n.bind Node.free?).getD [])) := by
  cases hc : n.bind Node.free? with
  | none => exact hP.object List.Pairwise.nil fun m hm => absurd hm List.not_mem_nil
  | some ms =>
    obtain ⟨c, hcn, hc⟩ := Option.bind_eq_some_iff.mp hc
    cases hn c hcn with
    | free contents =>
      obtain rfl := Option.some.inj hc
      exact contents
    | leaf | object | collection => simp [Node.free?] at hc

/-! ### The walk -/

/-- A member of a collection is shown as a whole, or by what is found of the member on both
sides. -/
theorem shows_of_mem_sides {α : Type} {json : α → Json}
    {both : String → α → α → List Finding} {olds news : List (String × α)}
    (hold : ∀ m ∈ olds, (json m.2).Present P) (hnew : ∀ m ∈ news, (json m.2).Present P)
    (hboth : ∀ k a b, (k, a) ∈ olds → (k, b) ∈ news → ∀ f ∈ both k a b, f.Shows P)
    (hf : f ∈ sides (ofSides o typeName path json both) olds news) : f.Shows P := by
  obtain ⟨k, a, b, ha, hb, hf⟩ := exists_of_mem_sides hf
  match a, b with
  | none, none => exact absurd hf List.not_mem_nil
  | some a, none =>
    rw [List.mem_singleton.mp hf]
    exact fun v hv => List.mem_singleton.mp hv ▸ hold _ (ha a rfl)
  | none, some b =>
    rw [List.mem_singleton.mp hf]
    exact fun v hv => List.mem_singleton.mp hv ▸ hnew _ (hb b rfl)
  | some a, some b => exact hboth k a b (ha a rfl) (hb b rfl) f hf

theorem shows_of_mem_fields {fields : List (String × FieldShape)}
    (ih : ∀ g ∈ fields, ∀ {o : Owner} {name path : String} {old new : Option Node},
      (∀ n ∈ old, n.Carries P) → (∀ n ∈ new, n.Carries P) →
        ∀ f ∈ ofField rules o name path old new g.2, f.Shows P)
    {o : Owner} {old new : Table Node} (hold : (Node.object old).Carries P)
    (hnew : (Node.object new).Carries P) :
    ∀ f ∈ ofFields rules o path old new fields, f.Shows P := by
  intro f hf
  rw [ofFields_eq_flatMap] at hf
  obtain ⟨g, hg, hf⟩ := List.mem_flatMap.mp hf
  split at hf
  · exact ih g hg (fun _ hn => hold.field hn) (fun _ hn => hnew.field hn) f hf
  · exact absurd hf List.not_mem_nil

/-- **The findings on a field show values of the field on the two sides.** -/
theorem shows_of_mem_ofField (hP : Json.Local P) (s : FieldShape) :
    ∀ {o : Owner} {name path : String} {old new : Option Node},
      (∀ n ∈ old, n.Carries P) → (∀ n ∈ new, n.Carries P) →
        ∀ f ∈ ofField rules o name path old new s, f.Shows P := by
  have hjson : ∀ {n : Node}, n.Carries P → n.json.Present P :=
    fun h => ⟨h.json_ne_null, h.json hP⟩
  have hsets : ∀ {o : Owner} {typeName path : String} {old new : Option Node},
      (∀ n ∈ old, n.Carries P) → (∀ n ∈ new, n.Carries P) →
        ∀ f ∈ ofSets o typeName path (members old) (members new), f.Shows P := by
    intro o typeName path old new hold hnew f hf
    rw [ofSets_eq_sides] at hf
    exact shows_of_mem_sides
      (fun m hm => hjson (carries_members hold _ (Node.exists_of_mem_byKey hm).1))
      (fun m hm => hjson (carries_members hnew _ (Node.exists_of_mem_byKey hm).1))
      (fun _ _ _ _ _ f hf => absurd hf List.not_mem_nil) hf
  induction s using FieldShape.fieldInduction with
  | leaf kind =>
    intro o name path old new hold hnew f hf
    rw [ofField] at hf
    unfold ofLeaves at hf
    exact shows_of_mem_ofValues (present_leaf? hold) (present_leaf? hnew) hf
  | object typeName fields ih =>
    intro o name path old new hold hnew f hf
    have hwhole : ∀ {n : Option Node}, (∀ m ∈ n, m.Carries P) →
        ∀ v ∈ (presentObject? rules path n).map fun fs => (Node.object fs).json,
          v.Present P := by
      intro n hn v hv
      obtain ⟨fs, hfs, rfl⟩ := Option.map_eq_some_iff.mp hv
      exact hjson (carries_presentObject? hn hfs)
    rw [ofField.eq_def] at hf
    dsimp only at hf
    split at hf
    · next hfs hgs =>
      exact shows_of_mem_fields ih (carries_presentObject? hold hfs)
        (carries_presentObject? hnew hgs) f hf
    · exact shows_of_mem_ofValues (hwhole hold) (hwhole hnew) hf
  | leaves kind =>
    intro o name path old new hold hnew f hf
    rw [ofField] at hf
    exact hsets hold hnew f hf
  | objects typeName fields identity ih =>
    intro o name path old new hold hnew f hf
    cases identity with
    | none =>
      rw [ofField] at hf
      exact hsets hold hnew f hf
    | some identity =>
      have hmember : ∀ {n : Option Node}, (∀ m ∈ n, m.Carries P) →
          ∀ m ∈ byIdentity identity (members n), (Node.object m.2).Carries P :=
        fun hn m hm => carries_members hn _ (Node.exists_of_mem_byIdentity hm).1
      rw [ofField_objects_eq_sides] at hf
      refine shows_of_mem_sides ?_ ?_ (fun k fs gs hfs hgs f hf => ?_) hf
      · exact fun m hm => hjson (hmember hold m hm)
      · exact fun m hm => hjson (hmember hnew m hm)
      have hfs := hmember hold _ hfs
      have hgs := hmember hnew _ hgs
      rcases List.mem_cons.mp hf with rfl | hf
      · intro v hv
        rcases List.mem_cons.mp hv with rfl | hv
        · exact hjson hfs
        · exact List.mem_singleton.mp hv ▸ hjson hgs
      · exact shows_of_mem_fields ih hfs hgs f hf
  | free =>
    intro o name path old new hold hnew f hf
    rw [ofField] at hf
    refine @shows_of_mem_ofFreeValues P rules o f hP (.obj _) (some (.obj _))
      ⟨by simp, carries_free? hP hold⟩ (fun x hx => ?_) name path hf
    exact Option.some.inj hx ▸ ⟨by simp, carries_free? hP hnew⟩

end Finding

/-! ### Records -/

namespace Correlation

open Finding

variable {fs : List Finding} {r : ChangeRecord} {v : Json}

/-- A change of a field of the root is the subject of a finding. -/
theorem exists_field_of_mem_fieldChanges {c : FieldChange}
    (hc : c ∈ (ofFindings fs).fieldChanges) : ∃ o, field o c ∈ fs := by
  rw [fieldChanges, groups_ofFindings] at hc
  obtain ⟨_, hg, hc⟩ := List.mem_flatMap.mp hc
  obtain ⟨o, -, rfl⟩ := List.mem_map.mp hg
  dsimp only at hc
  split at hc
  · obtain ⟨f, hf, hchange⟩ := List.mem_filterMap.mp (List.mem_of_mem_filter hc)
    cases f with
    | field o' c' => exact ⟨o', Option.some.inj hchange ▸ (mem_about.mp hf).1⟩
    | member | matched => simp [Finding.change?] at hchange
  · exact absurd hc List.not_mem_nil

/-- An item of the record shows the values of an arrival, a departure or a match. -/
theorem exists_finding_of_mem_itemsOf {dirty : List Owner} {o : Owner} {i : String × ItemChange}
    (hi : i ∈ itemsOf dirty o (groupOf fs o)) : ∃ f ∈ fs, f.values = i.2.values := by
  rw [itemsOf] at hi
  split at hi
  · obtain ⟨m, hm, hitem⟩ := List.mem_filterMap.mp hi
    obtain ⟨f, hf, hmembership⟩ := List.mem_filterMap.mp (List.mem_of_mem_filter hm)
    obtain ⟨item, hitem, rfl⟩ := Option.map_eq_some_iff.mp hitem
    refine ⟨f, (mem_about.mp hf).1, ?_⟩
    cases f with
    | field | matched => simp [membership?] at hmembership
    | member site o' kind value =>
      obtain rfl := Option.some.inj hmembership
      cases kind with
      | added | removed => exact Option.some.inj hitem ▸ rfl
      | modified | nothing => simp [itemOf?] at hitem
  · split at hi
    · next m hm =>
      obtain ⟨f, hf, hmatch⟩ := List.mem_filterMap.mp (List.mem_of_getLast? hm)
      refine ⟨f, (mem_about.mp hf).1, ?_⟩
      split at hi
      · obtain rfl := List.mem_singleton.mp hi
        cases f with
        | field | member => simp [match?] at hmatch
        | matched site o' old new => exact Option.some.inj hmatch ▸ rfl
      · exact absurd hi List.not_mem_nil
    · exact absurd hi List.not_mem_nil

theorem exists_finding_of_mem_collectionChanges {c : CollectionChange} {i : ItemChange}
    (hc : c ∈ (ofFindings fs).collectionChanges) (hi : i ∈ c.items) :
    ∃ f ∈ fs, f.values = i.values := by
  rw [collectionChanges, CollectionChange.foldl_pushTo_nil] at hc
  obtain ⟨name, -, rfl⟩ := List.mem_map.mp hc
  have hitem := (CollectionChange.mem_items_foldl_push hi).resolve_left List.not_mem_nil
  obtain ⟨⟨n, i'⟩, hi', rfl⟩ := List.mem_map.mp hitem
  obtain ⟨_, hg, hi'⟩ := List.mem_flatMap.mp (List.mem_of_mem_filter hi')
  rw [groups_ofFindings] at hg
  obtain ⟨o, -, rfl⟩ := List.mem_map.mp hg
  exact exists_finding_of_mem_itemsOf hi'

/-- **A record shows values of findings.** -/
theorem exists_finding_of_mem_values (hr : (ofFindings fs).record? = some r)
    (hv : v ∈ r.values) : ∃ f ∈ fs, v ∈ f.values := by
  rw [record?, ChangeRecord.of?] at hr
  split at hr
  · cases hr
  · obtain rfl := Option.some.inj hr
    rcases List.mem_append.mp hv with hv | hv
    · obtain ⟨c, hc, hv⟩ := List.mem_flatMap.mp hv
      obtain ⟨o, hf⟩ := exists_field_of_mem_fieldChanges (List.mem_of_mem_filter hc)
      exact ⟨_, hf, hv⟩
    · obtain ⟨i, hi, hv⟩ := List.mem_flatMap.mp hv
      obtain ⟨c, hc, hi⟩ := List.mem_flatMap.mp hi
      obtain ⟨c', hc', rfl⟩ := List.mem_map.mp (List.mem_of_mem_filter hc)
      obtain ⟨f, hf, hvalues⟩ :=
        exists_finding_of_mem_collectionChanges hc' (List.mem_of_mem_filter hi)
      exact ⟨f, hf, hvalues ▸ hv⟩

end Correlation

namespace Rules

/-- **No value in a record is `null`**, and every value has what the snapshots have. -/
theorem present_of_diff {P : Json → Prop} {rules : Rules} {s t : Option Json} {r : ChangeRecord}
    (hP : Json.Local P) (hrules : rules.Preserves P) (hs : ∀ v ∈ s, P v) (ht : ∀ v ∈ t, P v)
    (h : rules.diff s t = .ok (some r)) : ∀ v ∈ r.values, v.Present P := by
  intro v hv
  obtain ⟨old, new, hold, hnew, hr⟩ := diff_eq_ok.mp h
  obtain ⟨f, hf, hv⟩ := Correlation.exists_finding_of_mem_values hr.symm hv
  refine Finding.shows_of_mem_fields (fun g _ => Finding.shows_of_mem_ofField hP g.2) ?_ ?_ f hf v
    hv
  · exact Entity.carries_ofSnapshot hP.hereditary hrules hs hold
  · exact Entity.carries_ofSnapshot hP.hereditary hrules ht hnew

end Rules

end SnapshotDiff
