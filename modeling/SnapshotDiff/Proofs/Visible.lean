import SnapshotDiff.Proofs.BuiltIn.Layout
import SnapshotDiff.Proofs.Comparison
import SnapshotDiff.Proofs.Finding.Ignoring
import SnapshotDiff.Proofs.Finding.Quiet
import SnapshotDiff.Proofs.Node.Exact
import SnapshotDiff.Proofs.Node.Visible

/-!
# What is ignored does not matter

Entities of which a comparison sees the same do not differ, whatever they hold besides.  What it
sees is what lies outside the ignored paths, and what it tells members and empty objects apart by.

## Main definitions

* `Finding.Overlooks` — values of a field of which the same is seen do not differ.
* `Entity.visible` — what is seen of an entity.

## Main results

* `Finding.overlooks` — what is seen decides, whatever is declared for the field.
* `Rules.diff_eq_none_of_visible` — **entities of which the same is seen do not differ.**
* `Rules.diff_ignoring_eq_none` — the same of built-in rules that ignore paths.
* `Seen.seen_at_ignored_paths` — where something is seen although its path is ignored.
-/

namespace SnapshotDiff

open SnapshotDiff.Path (outside)
open Node (isVoid same sameFields sameMembers visible visible? visibleFields visibleMember
  visibleMembers)

namespace Finding

variable {rules : Rules} {shows : String → Bool} {o : Owner} {name path : String}

/-! ### Free objects -/

/-- Equal values do not differ, if they are not objects. -/
theorem ofFreeValues_eq_nil {v w : Json} (hv : v.members? = none) (h : Json.same v w) :
    ofFreeValues rules o name path (present? (some v)) (present? (some w)) = [] := by
  have hequal : ∀ {v w : Json}, Json.same v w →
      ofValues o name path (some v) (some w) (Json.same v w) = [] := by
    intro v w h
    rw [h]
    rfl
  cases v with
  | obj ms => simp [Json.members?] at hv
  | null =>
    obtain rfl : Json.null = w := Json.eq_of_same h (by simp) (by simp) (by simp)
    rfl
  | bool | int | float | str | arr => cases w <;> first | exact hequal h | cases h

/-- Free objects do not differ if the values at reported paths do not. -/
theorem ofFree_eq_nil (hshows : ∀ p, rules.reportable p → shows p) {ms ns : Table Json}
    (hms : (Json.obj ms).Canonical) (hns : (Json.obj ns).Canonical)
    (h : ∀ k v w, ms.lookup k = some v → ns.lookup k = some w →
      Json.same (v.restrict shows (Path.child path k)) (w.restrict shows (Path.child path k)) →
      ofFreeValues rules o k (Path.child path k) (present? (some v)) (present? (some w)) = [])
    (hsame : Json.sameMembers (Json.restrictMembers shows path ms)
      (Json.restrictMembers shows path ns)) : ofFree rules o path ms ns = [] := by
  rw [Json.canonical_obj_iff] at hms hns
  rw [ofFree_eq_sides, sides_eq_nil_iff (fun k => ofFreeSides_none_none k) hms.1.nodup_keys
    hns.1.nodup_keys]
  intro k
  rw [ofFreeSides]
  split
  · next hreportable =>
    have hbelow := hshows _ hreportable
    have hrel := Json.rel_lookup_of_sameMembers hsame k
    rw [Json.lookup_restrictMembers ms hbelow, Json.lookup_restrictMembers ns hbelow] at hrel
    generalize hv : ms.lookup k = v at hrel ⊢
    generalize hw : ns.lookup k = w at hrel ⊢
    cases v with
    | none =>
      cases w with
      | none => rfl
      | some w => cases hrel
    | some v =>
      cases w with
      | none => cases hrel
      | some w =>
        cases hrel with
        | some hsame => exact h k v w hv hw hsame
  · rfl

/-- Values of which the same is at shown paths do not differ. -/
theorem ofFreeValues_eq_nil_of_restrict (hshows : ∀ p, rules.reportable p → shows p) (v : Json) :
    ∀ {name path : String} {w : Json}, v.Canonical → w.Canonical →
      Json.same (v.restrict shows path) (w.restrict shows path) →
      ofFreeValues rules o name path (present? (some v)) (present? (some w)) = [] := by
  induction v using Json.memberInduction with
  | object ms ih =>
    intro name path w hv hw h
    obtain ⟨ns, hns, hsame⟩ := Json.exists_obj_of_same h
    cases w with
    | obj ns' =>
      obtain rfl := Json.obj.inj hns
      refine ofFree_eq_nil hshows hv hw (fun k v w hk hk' h => ?_) hsame
      have hmem := List.mem_of_lookup_eq_some hk
      exact ih _ hmem ((Json.canonical_obj_iff.mp hv).2 _ hmem)
        ((Json.canonical_obj_iff.mp hw).2 _ (List.mem_of_lookup_eq_some hk')) h
    | _ => simp [Json.restrict] at hns
  | other v hv =>
    intro name path w _ _ h
    have hrestrict : ∀ {v : Json}, v.members? = none → v.restrict shows path = v := by
      intro v hv
      cases v with
      | obj ms => simp [Json.members?] at hv
      | _ => rfl
    rw [hrestrict hv] at h
    cases w with
    | obj ns => cases v <;> simp [Json.same, Json.restrict, Json.members?] at h hv
    | _ => exact ofFreeValues_eq_nil hv h

/-! ### Members -/

variable {typeName identity : String} {fields : List (String × FieldShape)} {fs gs : Table Node}

/-- What objects of exact fields have under a name is one node if it is the same. -/
theorem get?_eq_of_rel_same (hexact : FieldShape.areExact fields)
    (hfs : Node.Fits Json.Canonical (.object typeName fields) (.object fs))
    (hgs : Node.Fits Json.Canonical (.object typeName fields) (.object gs)) {name : String}
    (h : Option.Rel (fun n m => same n m = true) (fs.get? name) (gs.get? name)) :
    fs.get? name = gs.get? name := by
  generalize hn : fs.get? name = n at h ⊢
  generalize hm : gs.get? name = m at h ⊢
  cases h with
  | none => rfl
  | some h =>
    obtain ⟨s, hs, hfits⟩ := hfs.exists_declaration (Table.mem_of_get?_eq_some hn)
    have hs' := FieldShape.areExact_iff.mp hexact _ hs
    exact congrArg some (hfits.eq_of_same hs' (hgs.field hs hm) (Node.json_same_of_same h))

/-- Members of which the same is looked at have the same identity. -/
theorem identityKey_eq_of_visible (hexact : FieldShape.areExact fields)
    (hfs : Node.Fits Json.Canonical (.object typeName fields) (.object fs))
    (hgs : Node.Fits Json.Canonical (.object typeName fields) (.object gs))
    (h : same (visibleMember rules.defaultObjects shows identity fields path fs)
      (visibleMember rules.defaultObjects shows identity fields path gs)) :
    identityKey identity fs = identityKey identity gs
      ∧ sameFields (visibleFields rules.defaultObjects shows (some identity) fields path fs)
        (visibleFields rules.defaultObjects shows (some identity) fields path gs) := by
  have heq : fs.get? identity = gs.get? identity := by
    obtain ⟨fs', hfs', hfidentity⟩ := Node.exists_visibleMember identity fs
    obtain ⟨gs', hgs', hgidentity⟩ := Node.exists_visibleMember identity gs
    rw [hfs', hgs'] at h
    refine get?_eq_of_rel_same hexact hfs hgs ?_
    rw [← hfidentity, ← hgidentity]
    exact Node.rel_get?_of_sameFields h identity
  have hcontains : fs.contains identity = gs.contains identity := congrArg Option.isSome heq
  rw [visibleMember, visibleMember, ← hcontains] at h
  split at h
  · next hsome =>
    refine ⟨?_, h⟩
    obtain ⟨n, hn⟩ := Option.isSome_iff_exists.mp hsome
    rw [identityKey, identityKey, ← heq, hn]
  · -- members without the identity are the same altogether
    have hobject : (FieldShape.object typeName fields).isExact := hexact
    obtain rfl := Node.object.inj (hfs.eq_of_same hobject hgs (Node.json_same_of_same h))
    exact ⟨rfl, Node.sameFields_refl _⟩

/-- Under every identity the members of which the same is looked at are on both sides or on
none. -/
theorem rel_lookup_byIdentity_of_visible (hexact : FieldShape.areExact fields) {ns ms : List Node}
    (hns : ∀ n ∈ ns, Node.Fits Json.Canonical (.object typeName fields) n)
    (hms : ∀ m ∈ ms, Node.Fits Json.Canonical (.object typeName fields) m)
    (h : sameMembers (visibleMembers rules.defaultObjects shows identity fields path ns)
      (visibleMembers rules.defaultObjects shows identity fields path ms)) (k : String) :
    Option.Rel (fun fs gs : Table Node =>
        Node.Fits Json.Canonical (.object typeName fields) (.object fs)
        ∧ Node.Fits Json.Canonical (.object typeName fields) (.object gs)
        ∧ sameFields (visibleFields rules.defaultObjects shows (some identity) fields path fs)
          (visibleFields rules.defaultObjects shows (some identity) fields path gs) = true)
      ((byIdentity identity ns).lookup k) ((byIdentity identity ms).lookup k) := by
  rw [byIdentity, byIdentity, lookup_firstByKey, lookup_firstByKey, if_neg List.not_mem_nil,
    if_neg List.not_mem_nil]
  refine List.Forall₂.rel_lookup ?_ k
  induction ns generalizing ms with
  | nil =>
    cases ms with
    | nil => exact .nil
    | cons m ms =>
      obtain ⟨gs, rfl⟩ := (hms m List.mem_cons_self).exists_object
      simp [visibleMembers, sameMembers] at h
  | cons n ns ih =>
    obtain ⟨hn, hns'⟩ := List.forall_mem_cons.mp hns
    obtain ⟨fs, rfl⟩ := hn.exists_object
    cases ms with
    | nil => simp [visibleMembers, sameMembers] at h
    | cons m ms =>
      obtain ⟨hm, hms'⟩ := List.forall_mem_cons.mp hms
      obtain ⟨gs, rfl⟩ := hm.exists_object
      rw [visibleMembers, visibleMembers, sameMembers, Bool.and_eq_true] at h
      obtain ⟨hkey, hfields⟩ := identityKey_eq_of_visible hexact hn hm h.1
      exact .cons ⟨hkey, hn, hm, hfields⟩ (ih hns' hms' h.2)

/-! ### Fields -/

/-- Of two values of which the same is seen, a comparison finds members on both sides only. -/
def Overlooks (rules : Rules) (shows : String → Bool) (s : FieldShape) : Prop :=
  ∀ ⦃o : Owner⦄ ⦃name path : String⦄ ⦃old new : Option Node⦄,
    (∀ n ∈ old, Node.Fits Json.Canonical s n) → (∀ m ∈ new, Node.Fits Json.Canonical s m) →
    Option.Rel (fun n m => n.same m = true) (old.bind (visible? rules.defaultObjects shows s path))
      (new.bind (visible? rules.defaultObjects shows s path)) →
    OnlyMatches (ofField rules o name path old new s)

/-- Objects of which the same is seen have no fields that differ. -/
theorem onlyMatches_of_visibleFields (hshows : ∀ p, rules.reportable p → shows p)
    {kept : Option String} (hkept : ∀ name ∈ kept, FieldShape.areExact fields)
    (hnames : (fields.map Prod.fst).Nodup) (hfields : ∀ f ∈ fields, Overlooks rules shows f.2)
    (hfs : Node.Fits Json.Canonical (.object typeName fields) (.object fs))
    (hgs : Node.Fits Json.Canonical (.object typeName fields) (.object gs))
    (h : sameFields (visibleFields rules.defaultObjects shows kept fields path fs)
      (visibleFields rules.defaultObjects shows kept fields path gs)) :
    OnlyMatches (ofFields rules o path fs gs fields) := by
  refine onlyMatches_ofFields fun f hf hreportable => ?_
  refine hfields f hf (fun n hn => hfs.field hf hn) (fun m hm => hgs.field hf hm) ?_
  have hrel := Node.rel_get?_of_sameFields h f.1
  by_cases hk : kept = some f.1
  · -- the field that is kept is the same altogether
    subst hk
    rw [Node.get?_visibleFields_kept, Node.get?_visibleFields_kept] at hrel
    rw [get?_eq_of_rel_same (hkept _ rfl) hfs hgs hrel]
    cases (gs.get? f.1).bind _ with
    | none => exact .none
    | some m => exact .some (Node.same_refl m)
  · have hlookup : fields.lookup f.1 = some f.2 := (List.lookup_eq_some_iff_mem hnames).mpr hf
    rwa [Node.get?_visibleFields hk (hshows _ hreportable) hlookup hfs.ascending_fields,
      Node.get?_visibleFields hk (hshows _ hreportable) hlookup hgs.ascending_fields] at hrel

/-- What does not count as present is not found. -/
theorem ofField_eq_nil_of_isVoid {s : FieldShape} {old new : Option Node}
    (hold : ∀ n ∈ old, Node.Fits Json.Canonical s n ∧ isVoid rules.defaultObjects path n)
    (hnew : ∀ m ∈ new, Node.Fits Json.Canonical s m ∧ isVoid rules.defaultObjects path m) :
    ofField rules o name path old new s = [] := by
  by_cases hs : ∃ typeName fields, s = .object typeName fields
  · obtain ⟨typeName, fields, rfl⟩ := hs
    have hnone : ∀ {n : Option Node}, (∀ n' ∈ n, Node.Fits Json.Canonical
        (.object typeName fields) n' ∧ isVoid rules.defaultObjects path n') →
          presentObject? rules path n = none := by
      intro n hn
      cases n with
      | none => rfl
      | some n =>
        obtain ⟨hfits, hvoid⟩ := hn n rfl
        obtain ⟨fs, rfl⟩ := hfits.exists_object
        rw [Node.presentObject?_eq_ite, if_pos hvoid]
    rw [ofField.eq_def]
    dsimp only
    rw [hnone hold, hnone hnew]
    rfl
  · have hnone : ∀ {n : Option Node}, (∀ n' ∈ n, Node.Fits Json.Canonical s n'
        ∧ isVoid rules.defaultObjects path n') → n = none := fun hn =>
      Option.eq_none_iff_forall_not_mem.mpr fun n' hmem =>
        hs ((hn n' hmem).1.exists_object_of_isVoid (hn n' hmem).2)
    rw [hnone hold, hnone hnew, ofField_none_none]

/-- It is enough to look at two values that count as present. -/
theorem overlooks_of_present {s : FieldShape}
    (h : ∀ {o name path n m}, Node.Fits Json.Canonical s n → Node.Fits Json.Canonical s m →
      isVoid rules.defaultObjects path n = false → isVoid rules.defaultObjects path m = false →
      same (visible rules.defaultObjects shows s path n)
        (visible rules.defaultObjects shows s path m) →
      OnlyMatches (ofField rules o name path (some n) (some m) s)) : Overlooks rules shows s := by
  intro o name path old new hold hnew hrel
  -- a value of which nothing is seen does not count as present
  have hvoid : ∀ {n : Option Node}, n.bind (visible? rules.defaultObjects shows s path) = none →
      ∀ n' ∈ n, isVoid rules.defaultObjects path n' := by
    intro n hn n' hmem
    obtain rfl := Option.mem_def.mp hmem
    simpa [visible?] using hn
  have hpresent : ∀ {n : Option Node} {v : Node},
      n.bind (visible? rules.defaultObjects shows s path) = some v →
        ∃ n', n = some n' ∧ isVoid rules.defaultObjects path n' = false
          ∧ v = visible rules.defaultObjects shows s path n' := by
    intro n v hn
    obtain ⟨n', rfl, hv⟩ := Option.bind_eq_some_iff.mp hn
    rw [visible?] at hv
    split at hv
    · cases hv
    · next hnot => exact ⟨n', rfl, Bool.not_eq_true _ ▸ hnot, (Option.some.inj hv).symm⟩
  generalize hv : old.bind (visible? rules.defaultObjects shows s path) = v at hrel
  generalize hw : new.bind (visible? rules.defaultObjects shows s path) = w at hrel
  cases hrel with
  | none =>
    rw [ofField_eq_nil_of_isVoid (fun n h => ⟨hold n h, hvoid hv n h⟩)
      fun m h => ⟨hnew m h, hvoid hw m h⟩]
    exact .nil
  | some hsame =>
    obtain ⟨n, rfl, hn, rfl⟩ := hpresent hv
    obtain ⟨m, rfl, hm, rfl⟩ := hpresent hw
    exact h (hold n rfl) (hnew m rfl) hn hm hsame

/-- Collections of which each is looked at as a whole do not differ if they are the same. -/
theorem ofSets_eq_nil_of_same {s : FieldShape} (hexact : s.isExact) {ns ms : List Node}
    (hns : Node.Fits Json.Canonical s (.collection ns))
    (hms : Node.Fits Json.Canonical s (.collection ms))
    (h : same (.collection ns) (.collection ms)) : ofSets o typeName path ns ms = [] := by
  obtain rfl := Node.collection.inj (hns.eq_of_same hexact hms (Node.json_same_of_same h))
  exact ofSets_eq_nil fun _ => Iff.rfl

/-- **Of two values of which the same is seen, a comparison finds members on both sides only.** -/
theorem overlooks (hshows : ∀ p, rules.reportable p → shows p) {s : FieldShape}
    (hnames : s.everyObject alphanumeric) (hexact : s.hasExactMembers) :
    Overlooks rules shows s := by
  induction s using FieldShape.fieldInduction with
  | leaf kind =>
    refine overlooks_of_present fun hn hm _ _ h => ?_
    cases hn with
    | @leaf _ v j _ =>
      cases hm with
      | @leaf _ w k _ =>
        replace h : same (.leaf v j) (.leaf w k) := h
        rw [Node.same, Bool.and_eq_true, beq_iff_eq] at h
        rw [h.2, ofField_leaf_eq_nil]
        exact .nil
  | object typeName fields ih =>
    obtain ⟨hnames, hfields⟩ := FieldShape.everyObject_object.mp hnames
    rw [FieldShape.hasExactMembers, FieldShape.everyElement_object] at hexact
    refine overlooks_of_present fun hn hm hpresent hpresent' h => ?_
    obtain ⟨fs, rfl⟩ := hn.exists_object
    obtain ⟨gs, rfl⟩ := hm.exists_object
    rw [ofField.eq_def]
    dsimp only
    rw [Node.presentObject?_eq_ite, Node.presentObject?_eq_ite, hpresent, hpresent']
    exact onlyMatches_of_visibleFields hshows (by simp) (nodup_of_alphanumeric hnames)
      (fun f hf => ih f hf (hfields f hf) (hexact f hf)) hn hm h
  | leaves kind =>
    refine overlooks_of_present fun hn hm _ _ h => ?_
    obtain ⟨ns, rfl, -⟩ := hn.exists_collection rfl
    obtain ⟨ms, rfl, -⟩ := hm.exists_collection rfl
    rw [ofField]
    exact ofSets_eq_nil_of_same (s := .leaves kind) hexact hn hm h ▸ .nil
  | objects typeName fields identity ih =>
    rw [FieldShape.everyObject_objects, FieldShape.everyObject_object] at hnames
    obtain ⟨hnames, hfields⟩ := hnames
    have hmembers : FieldShape.areExact fields := hexact
    refine overlooks_of_present fun hn hm _ _ h => ?_
    obtain ⟨ns, rfl, hns⟩ := hn.exists_collection rfl
    obtain ⟨ms, rfl, hms⟩ := hm.exists_collection rfl
    cases identity with
    | none =>
      rw [ofField]
      exact ofSets_eq_nil_of_same (s := .objects typeName fields none) hexact hn hm h ▸ .nil
    | some identity =>
      refine onlyMatches_identified (rel_lookup_byIdentity_of_visible hmembers hns hms h) ?_
      rintro fs gs ⟨hfs, hgs, hsame⟩ o
      have hih : ∀ f ∈ fields, Overlooks rules shows f.2 := fun f hf => ih f hf (hfields f hf)
        (FieldShape.hasExactMembers_of_isExact (FieldShape.areExact_iff.mp hmembers f hf))
      exact onlyMatches_of_visibleFields hshows (fun _ _ => hmembers)
        (nodup_of_alphanumeric hnames) hih hfs hgs hsame
  | free =>
    refine overlooks_of_present @fun o name path _ _ hn hm _ _ h => ?_
    cases hn with
    | @free ms hms =>
      cases hm with
      | @free ns hns =>
        have hnil : ofFreeValues rules o name path (some (.obj ms)) (some (.obj ns)) = [] :=
          ofFreeValues_eq_nil_of_restrict hshows (.obj ms) hms hns h
        rw [ofFreeValues] at hnil
        show OnlyMatches (ofFree rules o path ms ns)
        exact hnil ▸ .nil

end Finding

/-! ### Comparisons -/

/-- What a comparison looks at of an entity if it reports at the shown paths only. -/
def Entity.visible (rules : Rules) (shows : String → Bool) (e : Entity) : Table Node :=
  visibleFields rules.defaultObjects shows none rules.shape.fields "" e.root

namespace Rules

variable {rules : Rules} {shows : String → Bool} {s t : Option Json} {old new : Entity}

/-- **Entities of which the same is seen do not differ.**  The paths at which the rules report are
shown, names are distinct and of letters and digits, and there are no floating-point numbers in
collections. -/
theorem diff_eq_none_of_visible (hnames : rules.shape.isAddressable)
    (hrules : rules.Preserves Json.Canonical)
    (hexact : (FieldShape.object rules.shape.typeName rules.shape.fields).hasExactMembers)
    (hshows : ∀ p, rules.reportable p → shows p)
    (hs : ∀ v ∈ s, v.Canonical) (ht : ∀ v ∈ t, v.Canonical)
    (hold : Entity.ofSnapshot rules s = .ok old) (hnew : Entity.ofSnapshot rules t = .ok new)
    (h : sameFields (old.visible rules shows) (new.visible rules shows)) :
    rules.diff s t = .ok none := by
  have halpha := Shape.isAlphanumeric_of_isAddressable hnames
  obtain ⟨hroot, hfields⟩ := FieldShape.everyObject_object.mp halpha
  rw [FieldShape.hasExactMembers, FieldShape.everyElement_object] at hexact
  have hfits : ∀ {s : Option Json} {e : Entity}, (∀ v ∈ s, v.Canonical) →
      Entity.ofSnapshot rules s = .ok e → e.Fits Json.Canonical rules :=
    fun hs he => Entity.fits_ofSnapshot Json.hereditary_canonical halpha hrules hs he
  have hmatches : Finding.OnlyMatches (rules.findings old new) :=
    Finding.onlyMatches_of_visibleFields hshows (by simp) (nodup_of_alphanumeric hroot)
      (fun f hf => Finding.overlooks hshows (hfields f hf) (hexact f hf)) (hfits hs hold)
      (hfits ht hnew) h
  exact diff_eq_ok.mpr ⟨old, new, hold, hnew, (Correlation.record?_eq_none hmatches).symm⟩

/-- **What is ignored does not matter.**  Entities of a built-in family of which the same is seen
outside the ignored paths do not differ once these are ignored. -/
theorem diff_ignoring_eq_none (f : Family) (tops : List String) (hs : ∀ v ∈ s, v.Canonical)
    (ht : ∀ v ∈ t, v.Canonical) (hold : Entity.ofSnapshot (builtIn f) s = .ok old)
    (hnew : Entity.ofSnapshot (builtIn f) t = .ok new)
    (h : sameFields (old.visible (builtIn f) (outside tops))
      (new.visible (builtIn f) (outside tops))) :
    ((builtIn f).ignoring tops).diff s t = .ok none := by
  have hshows : ∀ p, ((builtIn f).ignoring tops).reportable p → outside tops p := by
    intro p hp
    rw [ignoring_reportable, Bool.and_eq_true] at hp
    exact hp.2
  rw [← ofSnapshot_ignoring] at hold hnew
  exact diff_eq_none_of_visible (isAddressable_builtIn f) (preserves_builtIn f)
    (hasExactMembers_builtIn f) hshows hs ht hold hnew h

end Rules

/-! ### An item -/

namespace Shelved

/-- A circulation note of an item. -/
def note (id text : String) : Json := .obj [("id", .str id), ("note", .str text)]

/-- An item with a note and the place of its last check-in. -/
def item (text place : String) : Json :=
  .obj [("circulationNotes", .arr [note "1" text]),
    ("lastCheckIn", .obj [("servicePointId", .str place)])]

theorem canonical_item (text place : String) : (item text place).Canonical := by
  simp only [item, note, Json.Canonical, Json.CanonicalMembers, Json.CanonicalItems,
    Table.ascending_iff, List.map_cons, List.map_nil]
  decide

def ignored : List String := ["circulationNotes.note", "lastCheckIn"]

/-- The texts of two notes and the places of the last check-in differ, and all of that is
ignored. -/
theorem diff_item : ∃ old new,
    Entity.ofSnapshot (Rules.builtIn .item) (some (item "fragile" "main")) = .ok old
    ∧ Entity.ofSnapshot (Rules.builtIn .item) (some (item "missing" "annex")) = .ok new
    ∧ sameFields (old.visible (Rules.builtIn .item) (outside ignored))
      (new.visible (Rules.builtIn .item) (outside ignored))
    ∧ ((Rules.builtIn .item).ignoring ignored).diff (some (item "fragile" "main"))
      (some (item "missing" "annex")) = .ok none := by
  have hcanonical : ∀ text place, ∀ v ∈ some (item text place), v.Canonical :=
    fun text place v hv => Option.some.inj hv ▸ canonical_item text place
  have hold : Entity.ofSnapshot (Rules.builtIn .item) (some (item "fragile" "main")) = .ok _ := rfl
  have hnew : Entity.ofSnapshot (Rules.builtIn .item) (some (item "missing" "annex")) = .ok _ := rfl
  refine ⟨_, _, hold, hnew, ?same, Rules.diff_ignoring_eq_none .item ignored (hcanonical _ _)
    (hcanonical _ _) hold hnew ?same⟩
  decide +kernel

end Shelved

/-! ### What is seen all the same -/

namespace Seen

/-- Two items are equal at all paths that are not ignored, and yet they differ. -/
def At (tops : List String) (old new : Json) : Prop := ∃ e e',
  Entity.ofSnapshot (Rules.builtIn .item) (some old) = .ok e
  ∧ Entity.ofSnapshot (Rules.builtIn .item) (some new) = .ok e'
  ∧ sameFields (Node.restrictFields (outside tops) "" e.root)
    (Node.restrictFields (outside tops) "" e'.root)
  ∧ ∃ r, ((Rules.builtIn .item).ignoring tops).diff (some old) (some new) = .ok (some r)

/-- An item with one field. -/
def item (name : String) (value : Json) : Json := .obj [(name, value)]

/-- A member with one field. -/
def member (name value : String) : Json := .arr [.obj [(name, .str value)]]

theorem exists_record {d : Except DiffError (Option ChangeRecord)}
    (h : (d.toOption.bind id).isSome) : ∃ r, d = .ok (some r) := by
  cases d with
  | error e => cases h
  | ok r =>
    obtain ⟨r, rfl⟩ := Option.isSome_iff_exists.mp h
    exact ⟨r, rfl⟩

/-- A member without an identity is another one if any of its fields differs, and so is a member
whose identity differs.  An object with an ignored field is not empty. -/
theorem seen_at_ignored_paths :
    At ["notes.note"] (item "notes" (member "note" "a")) (item "notes" (member "note" "b"))
    ∧ At ["circulationNotes.note"] (item "circulationNotes" (member "note" "a"))
      (item "circulationNotes" (member "note" "b"))
    ∧ At ["circulationNotes.id"] (item "circulationNotes" (member "id" "1"))
      (item "circulationNotes" (member "id" "2"))
    ∧ At ["lastCheckIn.servicePointId"]
      (item "lastCheckIn" (.obj [("servicePointId", .str "x")])) (item "lastCheckIn" (.obj [])) :=
  ⟨⟨_, _, rfl, rfl, by decide +kernel, exists_record (by decide +kernel)⟩,
    ⟨_, _, rfl, rfl, by decide +kernel, exists_record (by decide +kernel)⟩,
    ⟨_, _, rfl, rfl, by decide +kernel, exists_record (by decide +kernel)⟩,
    ⟨_, _, rfl, rfl, by decide +kernel, exists_record (by decide +kernel)⟩⟩

end Seen

end SnapshotDiff
