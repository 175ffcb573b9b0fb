import SnapshotDiff.Proofs.Congruence
import SnapshotDiff.Proofs.Creation

/-!
# Creations tell everything

The record of a creation has all that a comparison can find.  Two snapshots with one record have the
same holdings, up to equality of values; and where the holdings of a field are the same on two
sides, the field does not differ, although a comparison of the two sides does not walk as the
comparisons with the absent side do.

## Main definitions

* `ChangeRecord.Same` — equality of records, which holds the two floating-point zeros equal.
* `Holding.Same`, `Holding.Alike` — the same is at a place; two lists tell the same.

## Main results

* `Holding.Alike.field` — what an object holds is told apart field by field.
* `Change.ofField_eq_nil_of_alike` — fields that hold the same do not differ.
* `Rules.diff_builtIn_eq_none_of_same_creation` — **a creation loses nothing**, for the built-in
  rules.
-/

namespace SnapshotDiff

open Finding (byKey byIdentity members present? presentObject?)

/-! ### Equality of records -/

/-- The changes are those of one field, and have equal values. -/
def FieldChange.same (a b : FieldChange) : Bool :=
  a.kind == b.kind && a.name == b.name && a.path == b.path && Json.same? a.old b.old
    && Json.same? a.new b.new

/-- The changes are those of one collection, and equal in turn. -/
structure CollectionChange.Same (c d : CollectionChange) : Prop where
  name : c.name = d.name
  items : List.Forall₂ (fun i j => i.same j = true) c.items d.items

/-- The records have equal changes in turn. -/
structure ChangeRecord.Same (r s : ChangeRecord) : Prop where
  fields : List.Forall₂ (fun a b => a.same b = true) r.fields s.fields
  collections : List.Forall₂ CollectionChange.Same r.collections s.collections

theorem FieldChange.same_iff {a b : FieldChange} : a.same b ↔ a.kind = b.kind ∧ a.name = b.name
    ∧ a.path = b.path ∧ Json.same? a.old b.old ∧ Json.same? a.new b.new := by
  simp only [same, Bool.and_eq_true, beq_iff_eq, and_assoc]

theorem FieldChange.same_refl (a : FieldChange) : a.same a :=
  same_iff.mpr ⟨rfl, rfl, rfl, Json.same?_refl _, Json.same?_refl _⟩

theorem FieldChange.same_symm {a b : FieldChange} (h : a.same b) : b.same a := by
  obtain ⟨hkind, hname, hpath, hold, hnew⟩ := same_iff.mp h
  exact same_iff.mpr
    ⟨hkind.symm, hname.symm, hpath.symm, Json.same?_symm hold, Json.same?_symm hnew⟩

theorem CollectionChange.Same.refl (c : CollectionChange) : c.Same c :=
  ⟨rfl, List.forall₂_same.mpr fun i _ => ItemChange.same_refl i⟩

theorem CollectionChange.Same.symm {c d : CollectionChange} (h : c.Same d) : d.Same c :=
  ⟨h.name.symm, (h.items.imp fun _ _ => ItemChange.same_symm).flip⟩

namespace ChangeRecord

theorem Same.refl (r : ChangeRecord) : r.Same r :=
  ⟨List.forall₂_same.mpr fun a _ => FieldChange.same_refl a,
    List.forall₂_same.mpr fun c _ => CollectionChange.Same.refl c⟩

theorem Same.symm {r s : ChangeRecord} (h : r.Same s) : s.Same r :=
  ⟨(h.fields.imp fun _ _ => FieldChange.same_symm).flip,
    (h.collections.imp fun _ _ => CollectionChange.Same.symm).flip⟩

end ChangeRecord

/-! ### The same holdings -/

namespace Holding

/-- The same is at the same place, up to equality of values. -/
inductive Same : Holding → Holding → Prop
  | value {name path : String} {v w : Json} (h : Json.same v w) :
    Same (value name path v) (value name path w)
  | collection {path : String} {vs ws : List Json} (h : Json.sameItems vs ws) :
    Same (collection path vs) (collection path ws)

/-- Everything that the first list tells is told by the second one. -/
def Among (hs ks : List Holding) : Prop := ∀ h ∈ hs, ∃ k ∈ ks, h.Same k

/-- The lists tell the same. -/
def Alike (hs ks : List Holding) : Prop := Among hs ks ∧ Among ks hs

theorem Same.path_eq {h k : Holding} (hsame : h.Same k) : h.path = k.path := by
  cases hsame <;> rfl

theorem Same.value_inj {name name' path path' : String} {v w : Json}
    (h : Same (Holding.value name path v) (Holding.value name' path' w)) :
    name = name' ∧ Json.same v w := by
  cases h with
  | value hvalue => exact ⟨rfl, hvalue⟩

/-- What is told by a record is told by any that equals it. -/
theorem among_of_same {hs ks : List Holding}
    (h : ChangeRecord.Same ⟨hs.filterMap field?, hs.filterMap collection?⟩
      ⟨ks.filterMap field?, ks.filterMap collection?⟩) : Among hs ks := by
  intro held hheld
  cases held with
  | value name path v =>
    obtain ⟨c, hc, hsame⟩ := h.fields.exists_of_mem (List.mem_filterMap.mpr ⟨_, hheld, rfl⟩)
    obtain ⟨k, hk, hkc⟩ := List.mem_filterMap.mp hc
    cases k with
    | collection => cases hkc
    | value name' path' w =>
      obtain rfl := Option.some.inj hkc
      obtain ⟨-, rfl, rfl, -, hvalue⟩ := FieldChange.same_iff.mp hsame
      exact ⟨_, hk, .value hvalue⟩
  | collection path vs =>
    obtain ⟨c, hc, hsame⟩ := h.collections.exists_of_mem (List.mem_filterMap.mpr ⟨_, hheld, rfl⟩)
    obtain ⟨k, hk, hkc⟩ := List.mem_filterMap.mp hc
    cases k with
    | value => cases hkc
    | collection path' ws =>
      obtain rfl := Option.some.inj hkc
      obtain ⟨rfl, hitems⟩ := hsame
      have hvalues : List.Forall₂ (fun v w => Json.same v w = true) vs ws := by
        rw [List.forall₂_map_left_iff, List.forall₂_map_right_iff] at hitems
        exact hitems.imp fun v w hvw => (ItemChange.same_iff.mp hvw).2.2
      exact ⟨_, hk, .collection (Json.sameItems_iff_forall₂.mpr hvalues)⟩

section Fields

variable {rules : Rules} {path : String}

theorem Among.field {fs gs : Table Node} {fields : List (String × FieldShape)}
    (halpha : alphanumeric (fields.map Prod.fst)) (hpath : ∀ f ∈ fields, Path.child path f.1 ≠ "")
    (h : Among (ofFields rules path fs fields) (ofFields rules path gs fields))
    {f : String × FieldShape} (hf : f ∈ fields) (hreport : rules.reportable (Path.child path f.1)) :
    Among (ofField rules f.1 (Path.child path f.1) (fs.get? f.1) f.2)
      (ofField rules f.1 (Path.child path f.1) (gs.get? f.1) f.2) := by
  intro held hheld
  have hmem : held ∈ ofFields rules path fs fields := by
    rw [ofFields_eq_flatMap]
    exact List.mem_flatMap.mpr ⟨f, hf, by rwa [if_pos hreport]⟩
  obtain ⟨k, hk, hsame⟩ := h held hmem
  rw [ofFields_eq_flatMap] at hk
  obtain ⟨g, hg, hk⟩ := List.mem_flatMap.mp hk
  split at hk
  · next hreport' =>
    -- both places are one, and it lies below one field only
    have hbelow := (spec_ofField f.2 (hpath f hf) hreport held hheld).2
    have hbelow' := (spec_ofField g.2 (hpath g hg) hreport' k hk).2
    rw [← hsame.path_eq] at hbelow'
    obtain rfl := eq_of_within_fields halpha hf hg hbelow hbelow'
    exact ⟨k, hk, hsame⟩
  · exact absurd hk List.not_mem_nil

/-- **What an object holds is told apart field by field.** -/
theorem Alike.field {fs gs : Table Node} {fields : List (String × FieldShape)}
    (halpha : alphanumeric (fields.map Prod.fst)) (hpath : ∀ f ∈ fields, Path.child path f.1 ≠ "")
    (h : Alike (ofFields rules path fs fields) (ofFields rules path gs fields))
    {f : String × FieldShape} (hf : f ∈ fields) (hreport : rules.reportable (Path.child path f.1)) :
    Alike (ofField rules f.1 (Path.child path f.1) (fs.get? f.1) f.2)
      (ofField rules f.1 (Path.child path f.1) (gs.get? f.1) f.2) :=
  ⟨h.1.field halpha hpath hf hreport, h.2.field halpha hpath hf hreport⟩

/-- A value that is told is a value of the other object as well. -/
theorem Among.lookup {ms ns : Table Json} (hns : (ns.map Prod.fst).Nodup)
    (h : Among (ms.filterMap (ofFree? rules path)) (ns.filterMap (ofFree? rules path)))
    {key : String} (hreport : rules.reportable (Path.child path key)) {v : Json}
    (hv : present? (ms.lookup key) = some v) :
    ∃ w, present? (ns.lookup key) = some w ∧ Json.same v w := by
  have hmem := Finding.mem_of_present?_lookup hv
  have hne := (Finding.present?_eq_some_iff.mp hv).2
  have hheld := ofFree?_eq_some_iff (m := (key, v)).mpr ⟨hreport, hne, rfl⟩
  obtain ⟨k, hk, hsame⟩ := h _ (List.mem_filterMap.mpr ⟨_, hmem, hheld⟩)
  obtain ⟨m, hm, hkm⟩ := List.mem_filterMap.mp hk
  obtain ⟨-, hne', rfl⟩ := ofFree?_eq_some_iff.mp hkm
  obtain ⟨hname, hvalue⟩ := hsame.value_inj
  have hlookup : ns.lookup key = some m.2 :=
    (List.lookup_eq_some_iff_mem hns).mpr (by rwa [show key = m.1 from hname])
  exact ⟨m.2, Finding.present?_eq_some_iff.mpr ⟨hlookup, hne'⟩, hvalue⟩

/-- Free objects that tell the same have equal values at reported paths. -/
theorem Alike.rel_lookup {ms ns : Table Json} (hms : (ms.map Prod.fst).Nodup)
    (hns : (ns.map Prod.fst).Nodup)
    (h : Alike (ms.filterMap (ofFree? rules path)) (ns.filterMap (ofFree? rules path)))
    {key : String} (hreport : rules.reportable (Path.child path key)) :
    Option.Rel (fun v w => Json.same v w = true) (present? (ms.lookup key))
      (present? (ns.lookup key)) := by
  cases hv : present? (ms.lookup key) with
  | some v =>
    obtain ⟨w, hw, hsame⟩ := h.1.lookup hns hreport hv
    rw [hw]
    exact .some hsame
  | none =>
    cases hw : present? (ns.lookup key) with
    | none => exact .none
    | some w =>
      obtain ⟨v, hv', -⟩ := h.2.lookup hms hreport hw
      rw [hv] at hv'
      cases hv'

/-- Collections of exact members that tell the same have the same distinct members. -/
theorem Alike.firsts_eq {s : FieldShape} (hs : s.isExact) {P : Json → Prop}
    {identity : Option String} {ns ms : List Node} (hns : ∀ n ∈ ns, Node.Fits P s n)
    (hms : ∀ m ∈ ms, Node.Fits P s m)
    (h : Alike (ofMembers path identity ns) (ofMembers path identity ms)) :
    Node.firsts identity ns = Node.firsts identity ms := by
  obtain ⟨h, h'⟩ := h
  unfold ofMembers at h h'
  cases ns with
  | nil =>
    cases ms with
    | nil => rfl
    | cons m ms =>
      obtain ⟨k, hk, -⟩ := h' _ List.mem_cons_self
      cases hk
  | cons n ns =>
    cases ms with
    | nil =>
      obtain ⟨k, hk, -⟩ := h _ List.mem_cons_self
      cases hk
    | cons m ms =>
      obtain ⟨k, hk, hsame⟩ := h _ List.mem_cons_self
      rw [List.mem_singleton.mp hk] at hsame
      cases hsame with
      | collection hvalues =>
        rw [← Node.memberValues_eq_map, ← Node.memberValues_eq_map] at hvalues
        refine Node.eq_of_sameItems (fun n hn m hm hnm => ?_) hvalues
        exact (hns n (Node.mem_of_mem_firsts hn)).eq_of_same hs (hms m (Node.mem_of_mem_firsts hm))
          hnm

end Fields

end Holding

/-! ### Fields that hold the same -/

namespace Change

variable {rules : Rules} {name path : String} {n m : Option Node} {typeName : String}
  {fields : List (String × FieldShape)}

/-- At most one place on either side, which tells everything of what is there. -/
theorem eq_of_alike_toList {α : Type} {g : α → Holding} {a b : Option α}
    (h : Holding.Alike (a.map g).toList (b.map g).toList)
    (heq : ∀ x ∈ a, ∀ y ∈ b, (g x).Same (g y) → x = y) : a = b := by
  cases a with
  | none =>
    cases b with
    | none => rfl
    | some y =>
      obtain ⟨k, hk, -⟩ := h.2 _ List.mem_cons_self
      cases hk
  | some x =>
    cases b with
    | none =>
      obtain ⟨k, hk, -⟩ := h.1 _ List.mem_cons_self
      cases hk
    | some y =>
      obtain ⟨k, hk, hsame⟩ := h.1 _ List.mem_cons_self
      rw [List.mem_singleton.mp hk] at hsame
      rw [heq x rfl y rfl hsame]

/-- Leaves with the same value are the same. -/
theorem leaf?_eq_of_alike {P : Json → Prop} {kind : Leaf} (hkind : kind.isExact)
    (hn : ∀ x ∈ n, Node.Fits P (.leaf kind) x) (hm : ∀ x ∈ m, Node.Fits P (.leaf kind) x)
    (h : Holding.Alike (Holding.ofField rules name path n (.leaf kind))
      (Holding.ofField rules name path m (.leaf kind))) :
    n.bind Node.leaf? = m.bind Node.leaf? := by
  rw [Holding.ofField, Holding.ofField] at h
  have hjson : ∀ {a : Node} {l : Json × String}, a.leaf? = some l → a.json = l.1 := by
    intro a l hl
    cases a <;> simp only [Node.leaf?, Option.some.injEq, reduceCtorEq] at hl
    rw [← hl, Node.json]
  refine eq_of_alike_toList h fun x hx y hy hsame => ?_
  obtain ⟨a, ha, hx⟩ := Option.bind_eq_some_iff.mp hx
  obtain ⟨b, hb, hy⟩ := Option.bind_eq_some_iff.mp hy
  have hvalue := hsame.value_inj.2
  rw [← hjson hx, ← hjson hy] at hvalue
  obtain rfl := Node.Fits.eq_of_same (s := .leaf kind) hkind (hn a ha) (hm b hb) hvalue
  exact Option.some.inj (hx.symm.trans hy)

/-- Objects that are told as wholes are the same if their values are. -/
theorem presentObject?_eq_of_alike {P : Json → Prop}
    (hexact : (FieldShape.object typeName fields).isExact)
    (hdefault : rules.defaultObjects.contains path = false)
    (hn : ∀ x ∈ n, Node.Fits P (.object typeName fields) x)
    (hm : ∀ x ∈ m, Node.Fits P (.object typeName fields) x)
    (h : Holding.Alike (Holding.ofField rules name path n (.object typeName fields))
      (Holding.ofField rules name path m (.object typeName fields))) :
    presentObject? rules path n = presentObject? rules path m := by
  have hwhole : ∀ n, Holding.ofField rules name path n (.object typeName fields)
      = ((presentObject? rules path n).map fun fs =>
        Holding.value name path (Node.object fs).json).toList := by
    intro n
    rw [Holding.ofField, if_neg (by rw [hdefault]; decide), presentObject?, hdefault]
    cases n.bind Node.object? with
    | none => rfl
    | some fs => cases fs <;> rfl
  rw [hwhole, hwhole] at h
  refine eq_of_alike_toList h fun fs hfs gs hgs hsame => ?_
  have hfits := hn _ (Node.eq_object_of_presentObject? hfs)
  have hfits' := hm _ (Node.eq_object_of_presentObject? hgs)
  exact Node.object.inj (hfits.eq_of_same hexact hfits' hsame.value_inj.2)

/-- **Fields that hold the same do not differ.** -/
theorem ofField_eq_nil_of_alike (hnames : rules.shape.isAlphanumeric)
    (hshallow : rules.hasShallowDefaults) {s : FieldShape} (halpha : s.everyObject alphanumeric)
    (hs : s.isExact ∨ s = .free) : ∀ {name path : String} {n m : Option Node}, path ≠ "" →
      (∀ x ∈ n, Node.Fits Json.Canonical s x) → (∀ x ∈ m, Node.Fits Json.Canonical s x) →
        (rules.defaultObjects.contains path → n.isSome ∧ m.isSome) →
          Holding.Alike (Holding.ofField rules name path n s)
              (Holding.ofField rules name path m s) →
            ofField rules name path n m s = [] := by
  induction s using FieldShape.fieldInduction with
  | leaf kind =>
    intro name path n m _ hn hm _ h
    have hexact := hs.resolve_right (by simp)
    rw [ofField, leaf?_eq_of_alike hexact hn hm h, FieldChange.ofLeaves_self]
    rfl
  | object typeName fields ih =>
    intro name path n m hpath hn hm hsome h
    have hexact := hs.resolve_right (by simp)
    obtain ⟨hfields, halpha⟩ := FieldShape.everyObject_object.mp halpha
    cases hdefault : rules.defaultObjects.contains path with
    | false =>
      -- the comparison does not tell the one node from the other, which it does not differ from
      have hcongr : ofField rules name path n m (.object typeName fields)
          = ofField rules name path m m (.object typeName fields) := by
        rw [ofField.eq_def, ofField.eq_def]
        dsimp only
        rw [presentObject?_eq_of_alike hexact hdefault hn hm h]
      rw [hcongr, ofField_self _ hm]
    | true =>
      obtain ⟨hnsome, hmsome⟩ := hsome hdefault
      obtain ⟨n, rfl⟩ := Option.isSome_iff_exists.mp hnsome
      obtain ⟨m, rfl⟩ := Option.isSome_iff_exists.mp hmsome
      obtain ⟨fs, rfl⟩ := (hn n rfl).exists_object
      obtain ⟨gs, rfl⟩ := (hm m rfl).exists_object
      rw [Holding.ofField, Holding.ofField, if_pos hdefault, if_pos hdefault] at h
      rw [ofField, Node.presentObject?_object, Node.presentObject?_object, hdefault, Bool.true_or,
        Bool.true_or, if_pos rfl, if_pos rfl]
      dsimp only
      rw [ofFields_eq_flatMap, List.flatMap_eq_nil_iff]
      intro f hf
      rw [FieldShape.isExact, FieldShape.areExact_iff] at hexact
      have hbelow : ∀ f ∈ fields, Path.child path f.1 ≠ "" :=
        fun f _ => Path.child_ne_empty_of_ne hpath f.1
      split
      · next hreport =>
        have hchild := Rules.contains_child_eq_false hnames hshallow hpath f.1
        exact ih f hf (halpha f hf) (Or.inl (hexact f hf)) (hbelow f hf)
          (fun x hx => (hn _ rfl).field hf hx) (fun x hx => (hm _ rfl).field hf hx)
          (fun hcontains => absurd hcontains (by rw [hchild]; decide))
          (h.field hfields hbelow hf hreport)
      · rfl
  | leaves kind =>
    intro name path n m _ hn hm _ h
    have hexact : (FieldShape.leaf kind).isExact := hs.resolve_right (by simp)
    rw [Holding.ofField, Holding.ofField] at h
    have hfirsts := h.firsts_eq hexact (Node.Fits.of_mem_members_leaves hn)
      (Node.Fits.of_mem_members_leaves hm)
    have hkeys : byKey (members n) = byKey (members m) := by
      rw [Node.byKey_eq_map_firsts, Node.byKey_eq_map_firsts, hfirsts]
    have hcongr : ofField rules name path n m (.leaves kind)
        = ofField rules name path m m (.leaves kind) := by rw [ofField, ofField, hkeys]
    rw [hcongr, ofField_self _ hm]
  | objects typeName fields identity ih =>
    intro name path n m _ hn hm _ h
    have hexact : (FieldShape.object typeName fields).isExact := hs.resolve_right (by simp)
    rw [Holding.ofField, Holding.ofField] at h
    have hns := Node.Fits.of_mem_members_objects hn
    have hms := Node.Fits.of_mem_members_objects hm
    have hfirsts := h.firsts_eq hexact hns hms
    cases identity with
    | none =>
      have hkeys : byKey (members n) = byKey (members m) := by
        rw [Node.byKey_eq_map_firsts, Node.byKey_eq_map_firsts, hfirsts]
      have hcongr : ofField rules name path n m (.objects typeName fields none)
          = ofField rules name path m m (.objects typeName fields none) := by
        rw [ofField, ofField, hkeys]
      rw [hcongr, ofField_self _ hm]
    | some identity =>
      have hkeys : byIdentity identity (members n) = byIdentity identity (members m) := by
        rw [Node.byIdentity_eq_map_firsts identity fun x hx => (hns x hx).exists_object, hfirsts,
          Node.byIdentity_eq_map_firsts identity fun x hx => (hms x hx).exists_object]
      have hcongr : ofField rules name path n m (.objects typeName fields (some identity))
          = ofField rules name path m m (.objects typeName fields (some identity)) := by
        rw [ofField, ofField, hkeys]
      rw [hcongr, ofField_self _ hm]
  | free =>
    intro name path n m _ hn hm _ h
    rw [Holding.ofField, Holding.ofField] at h
    have hms := Node.Fits.canonical_free hn
    have hns := Node.Fits.canonical_free hm
    have hkeys : ∀ {ms : Table Json}, (Json.obj ms).Canonical → (ms.map Prod.fst).Nodup :=
      fun hms => (Json.canonical_obj_iff.mp hms).1.nodup_keys
    rw [ofField, FieldChange.ofFree_eq_nil hms hns fun k hreport =>
      h.rel_lookup (hkeys hms) (hkeys hns) hreport]
    rfl

end Change

/-! ### Entities -/

/-- Every field is exact, or a free object. -/
def Shape.hasExactFields (shape : Shape) : Bool :=
  shape.fields.all fun
    | (_, .free) => true
    | (_, s) => s.isExact

theorem Shape.exact_or_free_of_hasExactFields {shape : Shape} (h : shape.hasExactFields)
    {f : String × FieldShape} (hf : f ∈ shape.fields) : f.2.isExact ∨ f.2 = .free := by
  have hfield := List.all_eq_true.mp h f hf
  obtain ⟨name, s⟩ := f
  cases s with
  | free => exact Or.inr rfl
  | _ => exact Or.inl hfield

namespace Rules

theorem hasExactFields_builtIn (f : Family) : (builtIn f).shape.hasExactFields := by
  cases f <;> decide

/-- Equal records of additions tell the same. -/
theorem alike_of_rel_record? {hs ks : List Holding}
    (h : Option.Rel ChangeRecord.Same (Change.record? (hs.map Holding.change))
      (Change.record? (ks.map Holding.change))) : Holding.Alike hs ks := by
  rw [Change.record?, Change.record?, List.isEmpty_map, List.isEmpty_map] at h
  cases hs with
  | nil =>
    cases ks with
    | nil => exact ⟨fun _ hh => absurd hh List.not_mem_nil, fun _ hh => absurd hh List.not_mem_nil⟩
    | cons k ks => cases h
  | cons held hs =>
    cases ks with
    | nil => cases h
    | cons k ks =>
      cases h with
      | some hsame =>
        rw [Holding.filterMap_field?_map_change, Holding.filterMap_field?_map_change,
          Holding.filterMap_collection?_map_change, Holding.filterMap_collection?_map_change]
          at hsame
        exact ⟨Holding.among_of_same hsame, Holding.among_of_same hsame.symm⟩

section Same

variable {rules : Rules} {s t u : Option Json} {e e' : Entity} (hrules : rules.shape.isAddressable)
  (hshallow : rules.hasShallowDefaults) (hpreserves : rules.Preserves Json.Canonical)
  (hs : ∀ v ∈ s, v.Canonical) (ht : ∀ v ∈ t, v.Canonical)
  (he : Entity.ofSnapshot rules s = .ok e) (he' : Entity.ofSnapshot rules t = .ok e')
include hrules hshallow hpreserves hs ht he he'

/-- Entities that hold the same do not differ. -/
theorem onePass_eq_none_of_alike (hfields : rules.shape.hasExactFields)
    (h : Holding.Alike (e.holdings rules) (e'.holdings rules)) : rules.onePass e e' = none := by
  have hnames := Shape.isAlphanumeric_of_isAddressable hrules
  obtain ⟨halpha, hbelow⟩ := FieldShape.everyObject_object.mp hnames
  have hpaths := Shape.child_ne_empty_of_isAddressable hrules
  have hfits := Entity.fits_ofSnapshot Json.hereditary_canonical hnames hpreserves hs he
  have hfits' := Entity.fits_ofSnapshot Json.hereditary_canonical hnames hpreserves ht he'
  have hnil : Change.ofFields rules "" e.root e'.root rules.shape.fields = [] := by
    rw [Change.ofFields_eq_flatMap, List.flatMap_eq_nil_iff]
    intro f hf
    split
    · next hreport =>
      refine Change.ofField_eq_nil_of_alike hnames hshallow (hbelow f hf)
        (Shape.exact_or_free_of_hasExactFields hfields hf) (hpaths f hf)
        (fun x hx => hfits.field hf hx) (fun x hx => hfits'.field hf hx) (fun hdefault => ?_)
        (h.field halpha hpaths hf hreport)
      rw [Path.child_root] at hdefault
      exact ⟨Entity.isSome_get?_root hnames hshallow he hdefault,
        Entity.isSome_get?_root hnames hshallow he' hdefault⟩
    · rfl
  rw [onePass, hnil]
  rfl

/-- Snapshots of which the creations are told alike do not differ. -/
theorem onePass_eq_none_of_same_creation (hfields : rules.shape.hasExactFields)
    (hexact : (FieldShape.object rules.shape.typeName rules.shape.fields).hasExactMembers)
    {r r' : Option ChangeRecord} (hu : u = none ∨ u = some .null) (hr : rules.diff u s = .ok r)
    (hr' : rules.diff u t = .ok r') (h : Option.Rel ChangeRecord.Same r r') :
    rules.onePass e e' = none := by
  rw [diff_of_absent hrules hshallow hexact hu he] at hr
  rw [diff_of_absent hrules hshallow hexact hu he'] at hr'
  rw [← Except.ok.inj hr, ← Except.ok.inj hr'] at h
  exact onePass_eq_none_of_alike hrules hshallow hpreserves hs ht he he' hfields
    (alike_of_rel_record? h)

end Same

/-- **A creation loses nothing.**  If the records of the creations of two snapshots are equal, or
there is none of either, then a comparison of the snapshots finds no difference. -/
theorem diff_builtIn_eq_none_of_same_creation (f : Family) {s t u : Option Json}
    {r r' : Option ChangeRecord} (hs : ∀ v ∈ s, v.Canonical) (ht : ∀ v ∈ t, v.Canonical)
    (hu : u = none ∨ u = some .null) (hr : (builtIn f).diff u s = .ok r)
    (hr' : (builtIn f).diff u t = .ok r') (h : Option.Rel ChangeRecord.Same r r') :
    (builtIn f).diff s t = .ok none := by
  have hnames := isAddressable_builtIn f
  obtain ⟨-, e, -, he, -⟩ := (diff_eq_ok_iff hnames).mp hr
  obtain ⟨-, e', -, he', -⟩ := (diff_eq_ok_iff hnames).mp hr'
  refine (diff_eq_ok_iff hnames).mpr ⟨e, e', he, he', ?_⟩
  exact (onePass_eq_none_of_same_creation hnames (hasShallowDefaults_builtIn f)
    (preserves_builtIn f) hs ht he he' (hasExactFields_builtIn f) (hasExactMembers_builtIn f) hu hr
    hr' h).symm

/-- The newcomer once more, with what is not told told in another way: the second address of one
identity, the repeated department, the `null` and the bookkeeping. -/
def relative : Json :=
  .obj [("customFields", .obj [("team", .obj [("lead", .bool true)])]),
    ("departments", .arr [.str "law"]),
    ("metadata", .obj [("createdByUserId", .str "batch")]),
    ("personal", .obj [("addresses", .arr [.obj [("city", .str "Ulm"), ("id", .str "a")],
        .obj [("city", .str "Bonn")], .obj [("city", .str "Bern"), ("id", .str "a")]]),
      ("lastName", .str "Roe")]),
    ("username", .str "roe")]

theorem canonical_relative : relative.Canonical := by
  simp only [relative, Json.Canonical, Json.CanonicalMembers, Json.CanonicalItems,
    Table.ascending_iff]
  decide

theorem diff_builtIn_eq_none_of_same_creation_relative :
    ∃ r, (builtIn .user).diff none (some newcomer) = .ok (some r)
      ∧ (builtIn .user).diff none (some relative) = .ok (some r)
      ∧ (builtIn .user).diff (some newcomer) (some relative) = .ok none := by
  have hr : (builtIn .user).diff none (some newcomer) = .ok (some _) := rfl
  have hr' : (builtIn .user).diff none (some relative) = .ok (some _) := rfl
  refine ⟨_, hr, hr', ?_⟩
  exact diff_builtIn_eq_none_of_same_creation .user
    (fun v hv => Option.some.inj hv ▸ canonical_newcomer)
    (fun v hv => Option.some.inj hv ▸ canonical_relative) (Or.inl rfl) hr hr'
    (.some (ChangeRecord.Same.refl _))

end Rules

end SnapshotDiff
