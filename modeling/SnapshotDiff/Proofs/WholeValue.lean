import SnapshotDiff.Proofs.Entity.Reading
import SnapshotDiff.Proofs.Finding.Matched
import SnapshotDiff.Proofs.Node.Keys

/-!
# Whole values and their fields

Members without an identity are compared by their keys, and members with one are walked field by
field.  The two ways agree: nodes with one key do not differ, and nodes that do not differ have one
key unless the walk has overlooked something.

## Main definitions

* `Finding.KeyDecides`, `Finding.WalkDecides` — the two directions, for one declaration.

## Main results

* `Finding.keyDecides` — **nodes with one key do not differ.**
* `Finding.walkDecides` — **nodes that do not differ have one key.**
* `Node.key_eq_iff_onlyMatches` — objects that are read have one key if and only if a walk over them
  finds nothing but matches.
* `Overlooked.not_key_eq_iff_onlyMatches` — where keys and the walk disagree.
-/

namespace SnapshotDiff

open Node (Fits Consistent Discerned)

namespace Finding

variable {rules : Rules} {o : Owner} {path typeName : String} {s : FieldShape}
  {fields : List (String × FieldShape)}

/-! ### From keys to the walk -/

/-- Nodes of the declaration with one key do not differ. -/
def KeyDecides (rules : Rules) (s : FieldShape) : Prop :=
  ∀ ⦃n m : Node⦄, Fits Json.Canonical s n → Fits Json.Canonical s m → Consistent s n →
    n.key = m.key → ∀ o name path, OnlyMatches (ofField rules o name path (some n) (some m) s)

/-- Objects with one key have no fields that differ. -/
theorem onlyMatches_ofFields_of_key_eq {fs gs : Table Node}
    (hs : (FieldShape.object typeName fields).everyObject alphanumeric)
    (ih : ∀ f ∈ fields, KeyDecides rules f.2)
    (hfs : Fits Json.Canonical (.object typeName fields) (.object fs))
    (hgs : Fits Json.Canonical (.object typeName fields) (.object gs))
    (hconsistent : Consistent (.object typeName fields) (.object fs))
    (h : (Node.object fs).key = (Node.object gs).key) :
    OnlyMatches (ofFields rules o path fs gs fields) := by
  have hfields := (Node.key_object_eq_iff hs hfs hgs).mp h
  have hkeys := Node.keys_eq_of_map_key_eq hfs.ascending_fields hgs.ascending_fields hfields
  refine onlyMatches_of_fields hkeys fun name s n m hs hn hm => ?_
  have hkey := hfields name
  rw [hn, hm] at hkey
  exact ih _ hs (hfs.field hs hn) (hgs.field hs hm) (hconsistent.field hs hn)
    (Option.some.inj hkey)

/-- A member has its identity from its key, so that the other side has the identity if it has the
key. -/
theorem exists_mem_of_keys {ns ms : List Node}
    (hs : (FieldShape.object typeName fields).everyObject alphanumeric)
    (hns : ∀ n ∈ ns, Fits Json.Canonical (.object typeName fields) n)
    (hms : ∀ m ∈ ms, Fits Json.Canonical (.object typeName fields) m)
    (hkeys : ∀ k, k ∈ ns.map Node.key ↔ k ∈ ms.map Node.key) (identity : String)
    {fs : Table Node} (hfs : .object fs ∈ ns) :
    ∃ gs, .object gs ∈ ms ∧ (Node.object gs).key = (Node.object fs).key
      ∧ identityKey identity gs = identityKey identity fs := by
  obtain ⟨m, hm, hkey⟩ := List.mem_map.mp ((hkeys _).mp (List.mem_map_of_mem hfs))
  obtain ⟨gs, rfl⟩ := (hms m hm).exists_object
  exact ⟨gs, hm, hkey, Node.identityKey_eq_of_key_eq hs (hms _ hm) (hns _ hfs) hkey _⟩

theorem isSome_lookup_byIdentity_of_keys {ns ms : List Node}
    (hs : (FieldShape.object typeName fields).everyObject alphanumeric)
    (hns : ∀ n ∈ ns, Fits Json.Canonical (.object typeName fields) n)
    (hms : ∀ m ∈ ms, Fits Json.Canonical (.object typeName fields) m)
    (hkeys : ∀ k, k ∈ ns.map Node.key ↔ k ∈ ms.map Node.key) {identity k : String} :
    ((byIdentity identity ns).lookup k).isSome = ((byIdentity identity ms).lookup k).isSome := by
  rw [Bool.eq_iff_iff, Node.isSome_lookup_byIdentity_iff, Node.isSome_lookup_byIdentity_iff]
  constructor
  · rintro ⟨fs, hfs, rfl⟩
    obtain ⟨gs, hgs, -, hk⟩ := exists_mem_of_keys hs hns hms hkeys identity hfs
    exact ⟨gs, hgs, hk⟩
  · rintro ⟨gs, hgs, rfl⟩
    obtain ⟨fs, hfs, -, hk⟩ :=
      exists_mem_of_keys hs hms hns (fun k => (hkeys k).symm) identity hgs
    exact ⟨fs, hfs, hk⟩

/-- **Nodes with one key do not differ**, if members of one of them that share an identity have one
key. -/
theorem keyDecides (hs : s.everyObject alphanumeric) : KeyDecides rules s := by
  induction s using FieldShape.fieldInduction with
  | leaf kind =>
    intro n m hn hm _ h o name path
    cases hn with
    | @leaf _ v k _ =>
      cases hm with
      | @leaf _ w l _ =>
        obtain rfl : k = l := h
        rw [ofField_leaf_eq_nil]
        exact .nil
  | object typeName fields ih =>
    intro n m hn hm hconsistent h o name path
    obtain ⟨fs, rfl⟩ := hn.exists_object
    obtain ⟨gs, rfl⟩ := hm.exists_object
    have hkeys := Node.keys_eq_of_map_key_eq hn.ascending_fields hm.ascending_fields
      ((Node.key_object_eq_iff hs hn hm).mp h)
    rw [ofField.eq_def]
    dsimp only
    rcases presentObject?_of_keys_eq hkeys with ⟨hfs, hgs⟩ | ⟨hfs, hgs⟩
    · rw [hfs, hgs]
      exact .nil
    · rw [hfs, hgs]
      have hfields := (FieldShape.everyObject_object.mp hs).2
      exact onlyMatches_ofFields_of_key_eq hs (fun f hf => ih f hf (hfields f hf)) hn hm
        hconsistent h
  | leaves kind =>
    intro n m hn hm _ h o name path
    obtain ⟨ns, rfl, hns⟩ := hn.exists_collection rfl
    obtain ⟨ms, rfl, hms⟩ := hm.exists_collection rfl
    rw [ofField]
    exact ofSets_eq_nil ((Node.key_collection_eq_iff (s := .leaf kind) rfl hns hms).mp h) ▸ .nil
  | objects typeName fields identity ih =>
    intro n m hn hm hconsistent h o name path
    rw [FieldShape.everyObject_objects] at hs
    obtain ⟨ns, rfl, hns⟩ := hn.exists_collection rfl
    obtain ⟨ms, rfl, hms⟩ := hm.exists_collection rfl
    have hkeys := (Node.key_collection_eq_iff hs hns hms).mp h
    cases identity with
    | none =>
      rw [ofField]
      exact ofSets_eq_nil hkeys ▸ .nil
    | some identity =>
      refine onlyMatches_identified (fun k => rel_lookup_byIdentity
        (isSome_lookup_byIdentity_of_keys hs hns hms hkeys) fun fs gs hfs hgs hkey o => ?_) id
      -- the old side has a member with the key of the new one, and all that share its identity do
      obtain ⟨fs', hfs', hkey', hidentity'⟩ :=
        exists_mem_of_keys hs hms hns (fun k => (hkeys k).symm) identity hgs
      have hfirst := hconsistent.key_eq hfs hfs' (hkey.trans hidentity'.symm)
      have hfields := (FieldShape.everyObject_object.mp hs).2
      exact onlyMatches_ofFields_of_key_eq hs (fun f hf => ih f hf (hfields f hf)) (hns _ hfs)
        (hms _ hgs) (hconsistent.of_mem hfs) (hfirst.trans hkey')
  | free =>
    intro n m hn hm _ h o name path
    cases hn with
    | @free ms hms =>
      cases hm with
      | @free ns hns =>
        obtain rfl := Node.key_free_eq_iff.mp h
        show OnlyMatches (ofFree rules o path ms ms)
        rw [ofFree_eq_map, FieldChange.ofFree_self hms]
        exact .nil

/-! ### From the walk to keys -/

/-- Nodes of the declaration that do not differ have one key, if nothing is overlooked. -/
def WalkDecides (rules : Rules) (s : FieldShape) : Prop :=
  ∀ ⦃n m : Node⦄, Fits Json.Canonical s n → Fits Json.Canonical s m → Consistent s n →
    Consistent s m → Discerned s n m → ∀ {o name path},
      OnlyMatches (ofField rules o name path (some n) (some m) s) → n.key = m.key

/-- Objects without fields that differ have one key. -/
theorem key_eq_of_onlyMatches_ofFields (hreport : ∀ p, rules.reportable p) {fs gs : Table Node}
    (hs : (FieldShape.object typeName fields).everyObject alphanumeric)
    (ih : ∀ f ∈ fields, WalkDecides rules f.2)
    (hfs : Fits Json.Canonical (.object typeName fields) (.object fs))
    (hgs : Fits Json.Canonical (.object typeName fields) (.object gs))
    (hconsistent : Consistent (.object typeName fields) (.object fs))
    (hconsistent' : Consistent (.object typeName fields) (.object gs))
    (hdiscerned : Discerned (.object typeName fields) (.object fs) (.object gs))
    (h : OnlyMatches (ofFields rules o path fs gs fields)) :
    (Node.object fs).key = (Node.object gs).key := by
  refine (Node.key_object_eq_iff hs hfs hgs).mpr fun name => ?_
  by_cases hname : name ∈ fields.map Prod.fst
  · obtain ⟨f, hf, rfl⟩ := List.mem_map.mp hname
    have hfield : OnlyMatches (ofField rules o f.1 (Path.child path f.1) (fs.get? f.1)
        (gs.get? f.1) f.2) := fun x hx => h x (mem_ofFields hf (hreport _) hx)
    have hfits : ∀ n ∈ fs.get? f.1, Fits Json.Canonical f.2 n := fun n hn => hfs.field hf hn
    have hfits' : ∀ m ∈ gs.get? f.1, Fits Json.Canonical f.2 m := fun m hm => hgs.field hf hm
    by_cases hnone : fs.get? f.1 = none ∨ gs.get? f.1 = none
    · -- a field on one side only holds nothing, and that would be overlooked
      obtain ⟨hnothing, hnothing'⟩ :=
        holdsNothing_of_onlyMatches hreport hfits hfits' hnone hfield
      have hsome := hdiscerned.presence hname hnothing hnothing'
      cases hn : fs.get? f.1 <;> cases hm : gs.get? f.1 <;> simp [hn, hm] at hsome hnone ⊢
    · rw [not_or] at hnone
      obtain ⟨n, hn⟩ := Option.ne_none_iff_exists'.mp hnone.1
      obtain ⟨m, hm⟩ := Option.ne_none_iff_exists'.mp hnone.2
      rw [hn, hm] at hfield ⊢
      exact congrArg some (ih f hf (hfits n hn) (hfits' m hm) (hconsistent.field hf hn)
        (hconsistent'.field hf hm) (hdiscerned.field hf hn hm) hfield)
  · -- what is not declared is on neither side
    have hother : ∀ {fs : Table Node}, Fits Json.Canonical (.object typeName fields) (.object fs) →
        fs.get? name = none := by
      intro fs hfs
      rw [Option.eq_none_iff_forall_not_mem]
      intro n hn
      obtain ⟨s, hs, -⟩ := hfs.exists_declaration (Table.mem_of_get?_eq_some hn)
      exact hname (List.mem_map_of_mem hs)
    rw [hother hfs, hother hgs]

/-- Members have keys that the other side has as well, if those under one identity have one key. -/
theorem mem_keys_of_rel_byIdentity {ns ms : List Node} {identity : String}
    (hns : ∀ n ∈ ns, ∃ fs, n = Node.object fs)
    (halike : ∀ fs gs, .object fs ∈ ns → .object gs ∈ ns →
      identityKey identity fs = identityKey identity gs →
      (Node.object fs).key = (Node.object gs).key)
    (h : ∀ k, Option.Rel (fun fs gs => (Node.object fs).key = (Node.object gs).key)
      ((byIdentity identity ns).lookup k) ((byIdentity identity ms).lookup k)) :
    ∀ k ∈ ns.map Node.key, k ∈ ms.map Node.key := by
  intro k hk
  obtain ⟨n, hn, rfl⟩ := List.mem_map.mp hk
  obtain ⟨fs, rfl⟩ := hns n hn
  have hrel := h (identityKey identity fs)
  have hsome : ((byIdentity identity ns).lookup (identityKey identity fs)).isSome :=
    Node.isSome_lookup_byIdentity_iff.mpr ⟨fs, hn, rfl⟩
  cases hfirst : (byIdentity identity ns).lookup (identityKey identity fs) with
  | none => simp [hfirst] at hsome
  | some fs' =>
    cases hfirst' : (byIdentity identity ms).lookup (identityKey identity fs) with
    | none =>
      rw [hfirst, hfirst'] at hrel
      cases hrel
    | some gs' =>
      rw [hfirst, hfirst'] at hrel
      cases hrel with
      | some hkey =>
        obtain ⟨hmem, hidentity⟩ :=
          Node.exists_of_mem_byIdentity (List.mem_of_lookup_eq_some hfirst)
        obtain ⟨hmem', -⟩ := Node.exists_of_mem_byIdentity (List.mem_of_lookup_eq_some hfirst')
        rw [halike fs fs' hn hmem hidentity, hkey]
        exact List.mem_map_of_mem hmem'

/-- **Nodes that do not differ have one key**, if nothing is overlooked. -/
theorem walkDecides (hreport : ∀ p, rules.reportable p) (hs : s.everyObject alphanumeric) :
    WalkDecides rules s := by
  induction s using FieldShape.fieldInduction with
  | leaf kind =>
    intro n m hn hm _ _ _ o name path h
    cases hn with
    | @leaf _ v k _ =>
      cases hm with
      | @leaf _ w l _ =>
        rw [ofField, ofLeaves_eq_map] at h
        have hnil := h.eq_nil_of_fields
        show k = l
        simpa [FieldChange.ofLeaves, FieldChange.ofValues, Node.leaf?] using hnil
  | object typeName fields ih =>
    intro n m hn hm hconsistent hconsistent' hdiscerned o name path h
    obtain ⟨fs, rfl⟩ := hn.exists_object
    obtain ⟨gs, rfl⟩ := hm.exists_object
    have hfields := (FieldShape.everyObject_object.mp hs).2
    rw [ofField.eq_def] at h
    dsimp only at h
    cases hfs : presentObject? rules path (some (Node.object fs)) with
    | none =>
      rw [hfs] at h
      have hgs : presentObject? rules path (some (Node.object gs)) = none :=
        Option.map_eq_none_iff.mp (eq_none_of_onlyMatches_ofValues h).2
      rw [List.isEmpty_iff.mp (isEmpty_of_presentObject? hfs),
        List.isEmpty_iff.mp (isEmpty_of_presentObject? hgs)]
    | some fs' =>
      cases hgs : presentObject? rules path (some (Node.object gs)) with
      | none =>
        rw [hfs, hgs] at h
        cases (eq_none_of_onlyMatches_ofValues h).1
      | some gs' =>
        rw [hfs, hgs] at h
        obtain rfl := Node.object.inj (Option.some.inj (Node.eq_object_of_presentObject? hfs))
        obtain rfl := Node.object.inj (Option.some.inj (Node.eq_object_of_presentObject? hgs))
        exact key_eq_of_onlyMatches_ofFields hreport hs (fun f hf => ih f hf (hfields f hf)) hn hm
          hconsistent hconsistent' hdiscerned h
  | leaves kind =>
    intro n m hn hm _ _ _ o name path h
    obtain ⟨ns, rfl, hns⟩ := hn.exists_collection rfl
    obtain ⟨ms, rfl, hms⟩ := hm.exists_collection rfl
    rw [ofField] at h
    exact (Node.key_collection_eq_iff (s := .leaf kind) rfl hns hms).mpr h.mem_keys_iff
  | objects typeName fields identity ih =>
    intro n m hn hm hconsistent hconsistent' hdiscerned o name path h
    rw [FieldShape.everyObject_objects] at hs
    obtain ⟨ns, rfl, hns⟩ := hn.exists_collection rfl
    obtain ⟨ms, rfl, hms⟩ := hm.exists_collection rfl
    refine (Node.key_collection_eq_iff hs hns hms).mpr ?_
    cases identity with
    | none =>
      rw [ofField] at h
      exact h.mem_keys_iff
    | some identity =>
      have hfields := (FieldShape.everyObject_object.mp hs).2
      -- the first members of an identity have one key, and the others have that key as well
      have hpair : ∀ k, Option.Rel (fun fs gs => (Node.object fs).key = (Node.object gs).key)
          ((byIdentity identity ns).lookup k) ((byIdentity identity ms).lookup k) := by
        refine fun k => (h.rel_byIdentity k).imp_of_mem fun fs hfs gs hgs hmatches => ?_
        obtain ⟨hfmem, hfkey⟩ := Node.exists_of_mem_byIdentity (List.mem_of_lookup_eq_some hfs)
        obtain ⟨hgmem, hgkey⟩ := Node.exists_of_mem_byIdentity (List.mem_of_lookup_eq_some hgs)
        exact key_eq_of_onlyMatches_ofFields hreport hs (fun f hf => ih f hf (hfields f hf))
          (hns _ hfmem) (hms _ hgmem) (hconsistent.of_mem hfmem) (hconsistent'.of_mem hgmem)
          (hdiscerned.of_mem hfmem hgmem (hfkey.symm.trans hgkey)) hmatches
      exact fun k =>
        ⟨mem_keys_of_rel_byIdentity (fun n hn => (hns n hn).exists_object)
          (fun _ _ => hconsistent.key_eq) hpair k,
        mem_keys_of_rel_byIdentity (fun m hm => (hms m hm).exists_object)
          (fun _ _ => hconsistent'.key_eq) (fun k => (hpair k).swap.imp_of_mem
            fun _ _ _ _ hkey => hkey.symm) k⟩
  | free =>
    intro n m hn hm _ _ hdiscerned o name path h
    cases hn with
    | @free ms hms =>
      cases hm with
      | @free ns hns =>
        cases hdiscerned with
        | free values =>
          rw [ofField, ofFree_eq_map] at h
          exact congrArg Json.text (eq_of_ofFreeValues_eq_nil hreport (.obj ms) name path hms hns
            values h.eq_nil_of_fields)

/-! ### Members of sets -/

/-- What is gone from a collection has another key than what is new in it. -/
theorem key_ne_of_mem_ofSets {ns ms : List Node} {k l : String} {v w : Json}
    (hgone : ofMember o typeName path .removed k v ∈ ofSets o typeName path ns ms)
    (hnew : ofMember o typeName path .added l w ∈ ofSets o typeName path ns ms) : k ≠ l := by
  have hfresh : k ∉ ms.map Node.key := by
    rcases List.mem_append.mp hgone with hmem | hmem
    · obtain ⟨m, hm, heq⟩ := List.mem_map.mp hmem
      have hnone := Option.isNone_iff_eq_none.mp (List.mem_filter.mp hm).2
      rw [← (ofMember_inj heq).1, ← Node.isSome_lookup_byKey_iff, hnone]
      simp
    · obtain ⟨m, -, heq⟩ := List.mem_map.mp hmem
      cases (ofMember_inj heq).2
  have hthere : l ∈ ms.map Node.key := by
    rcases List.mem_append.mp hnew with hmem | hmem
    · obtain ⟨m, -, heq⟩ := List.mem_map.mp hmem
      cases (ofMember_inj heq).2
    · obtain ⟨m, hm, heq⟩ := List.mem_map.mp hmem
      rw [← (ofMember_inj heq).1, ← Node.isSome_lookup_byKey_iff, List.lookup_isSome_iff_mem]
      exact List.mem_map_of_mem (List.mem_filter.mp hm).1
  rintro rfl
  exact hfresh hthere

end Finding

/-! ### Objects that are read -/

namespace Node

open Finding (OnlyMatches ofFields ofField ofMember)

variable {f g : Family} {p q typeName : String} {v w : Json} {fs gs : Table Node}
  {fields : List (String × FieldShape)}

/-- **Objects that are read have one key if and only if a walk over them finds nothing but
matches.**  Members that share an identity have one key in each of them.  If the keys are equal the
walk finds nothing else, whatever it reports; and if it reports everything and overlooks nothing, it
finds nothing else only if the keys are equal.  So what is gone from a collection without an
identity differs in some field from what is new in it. -/
theorem key_eq_iff_onlyMatches
    (hs : (FieldShape.object typeName fields).everyObject alphanumeric)
    (hv : v.Canonical) (hw : w.Canonical)
    (hfs : readField f p v (.object typeName fields) = .ok (.object fs))
    (hgs : readField g q w (.object typeName fields) = .ok (.object gs))
    (hconsistent : Consistent (.object typeName fields) (.object fs))
    (hconsistent' : Consistent (.object typeName fields) (.object gs)) :
    ((object fs).key = (object gs).key →
      ∀ rules o path, OnlyMatches (ofFields rules o path fs gs fields))
    ∧ (Discerned (.object typeName fields) (.object fs) (.object gs) →
      ∀ rules : Rules, (∀ p, rules.reportable p) → ∀ o path,
        ((object fs).key = (object gs).key ↔ OnlyMatches (ofFields rules o path fs gs fields)))
    ∧ (Discerned (.object typeName fields) (.object fs) (.object gs) →
      ∀ rules o name path old new,
        ofMember o typeName path .removed (object fs).key (object fs).json
          ∈ ofField rules o name path old new (.objects typeName fields none) →
        ofMember o typeName path .added (object gs).key (object gs).json
          ∈ ofField rules o name path old new (.objects typeName fields none) →
        ∀ rules' : Rules, (∀ p, rules'.reportable p) → ∀ o' path',
          ¬OnlyMatches (ofFields rules' o' path' fs gs fields)) := by
  have hfits := fits_readField Json.hereditary_canonical hs hv hfs
  have hfits' := fits_readField Json.hereditary_canonical hs hw hgs
  have hfields := (FieldShape.everyObject_object.mp hs).2
  have hforward : (object fs).key = (object gs).key →
      ∀ rules o path, OnlyMatches (ofFields rules o path fs gs fields) := fun h _ _ _ =>
    Finding.onlyMatches_ofFields_of_key_eq hs (fun e he => Finding.keyDecides (hfields e he)) hfits
      hfits' hconsistent h
  have hback : Discerned (.object typeName fields) (.object fs) (.object gs) →
      ∀ rules : Rules, (∀ p, rules.reportable p) → ∀ o path,
        OnlyMatches (ofFields rules o path fs gs fields) → (object fs).key = (object gs).key :=
    fun hdiscerned _ hreport _ _ h => Finding.key_eq_of_onlyMatches_ofFields hreport hs
      (fun e he => Finding.walkDecides hreport (hfields e he)) hfits hfits' hconsistent hconsistent'
      hdiscerned h
  refine ⟨hforward, fun hdiscerned rules hreport o path =>
    ⟨fun h => hforward h rules o path, hback hdiscerned rules hreport o path⟩, ?_⟩
  intro hdiscerned rules o name path old new hgone hnew rules' hreport o' path' h
  rw [ofField] at hgone hnew
  exact Finding.key_ne_of_mem_ofSets hgone hnew (hback hdiscerned rules' hreport o' path' h)

end Node

/-! ### Shelves -/

namespace Overlooked

open FieldShape (nested stringList identified strings)
open Finding (OnlyMatches ofFields)
open Node (Consistent Discerned readField)

/-- Shelves with a note, with tags, with members of their own, and with copies that are told apart
by their `id`. -/
def shelf : Shape :=
  ⟨"Shelf", [nested "note" ⟨"Note", strings ["text"]⟩, stringList "tags", ("extra", .free),
    identified "copies" ⟨"Copy", strings ["id", "place"]⟩ "id"]⟩

/-- What a shelf is declared to be. -/
def declared : FieldShape := .object shelf.typeName shelf.fields

/-- A copy at a place. -/
def copy (id place : String) : Json := .obj [("id", .str id), ("place", .str place)]

/-- A shelf with a copy and with tags. -/
def tagged (tags : List String) : Json :=
  .obj [("copies", .arr [copy "1" "a"]), ("tags", .arr (tags.map .str))]

theorem canonical_tagged (tags : List String) : (tagged tags).Canonical := by
  have htags : (Json.arr (tags.map .str)).Canonical := by
    rw [Json.canonical_arr_iff]
    intro v hv
    obtain ⟨t, -, rfl⟩ := List.mem_map.mp hv
    exact trivial
  have hcopies : (Json.arr [copy "1" "a"]).Canonical := by
    simp only [copy, Json.Canonical, Json.CanonicalMembers, Json.CanonicalItems,
      Table.ascending_iff]
    decide
  have hkeys : ["copies", "tags"].Pairwise (· < ·) := by decide
  rw [tagged, Json.canonical_obj_iff, Table.ascending_iff]
  exact ⟨hkeys, by simp [htags, hcopies]⟩

/-- The fields of a copy that was read. -/
def copyFields (id place : String) : Table Node :=
  [("id", .leaf (.str id) (Json.str id).text), ("place", .leaf (.str place) (Json.str place).text)]

/-- The fields of a shelf that was read. -/
def taggedFields (tags : List String) : Table Node :=
  [("copies", .collection [.object (copyFields "1" "a")]),
    ("tags", .collection (tags.map fun t => .leaf (.str t) (Json.str t).text))]

/-- The declarations of the two fields that a tagged shelf has. -/
theorem exists_field_of_tagged {tags : List String} {name : String} {s : FieldShape} {n : Node}
    (hs : (name, s) ∈ shelf.fields) (hn : (taggedFields tags).get? name = some n) :
    s = .leaves .string ∨ s = .objects "Copy" (strings ["id", "place"]) (some "id")
      ∧ n = .collection [.object (copyFields "1" "a")] := by
  simp only [shelf, List.mem_cons, List.not_mem_nil, or_false] at hs
  rcases hs with h | h | h | h <;> obtain ⟨rfl, rfl⟩ := Prod.mk.inj h
  · cases hn
  · exact Or.inl rfl
  · cases hn
  · exact Or.inr ⟨rfl, (Option.some.inj hn).symm⟩

/-- Copies have leaves only. -/
theorem eq_leaf_of_copy {name : String} {s : FieldShape}
    (hs : (name, s) ∈ strings ["id", "place"]) : s = .leaf .string := by
  obtain ⟨_, -, h⟩ := List.mem_map.mp hs
  exact (Prod.mk.inj h).2.symm

theorem consistent_tagged (tags : List String) :
    Consistent declared (.object (taggedFields tags)) := by
  refine .object fun name s n hs hn => ?_
  rcases exists_field_of_tagged hs hn with rfl | ⟨rfl, rfl⟩
  · exact .leaves
  · refine .identified (fun m hm => ?_) fun fs gs hfs hgs _ => ?_
    · obtain rfl := List.mem_singleton.mp hm
      exact .object fun _ _ _ hs _ => eq_leaf_of_copy hs ▸ .leaf
    · rw [List.mem_singleton.mp hfs, List.mem_singleton.mp hgs]

theorem discerned_tagged (tags tags' : List String) :
    Discerned declared (.object (taggedFields tags)) (.object (taggedFields tags')) := by
  have hkeys : (taggedFields tags).keys = (taggedFields tags').keys := rfl
  refine .object (fun name _ _ _ => Table.isSome_eq_of_keys_eq hkeys name)
    fun name s n m hs hn hm => ?_
  rcases exists_field_of_tagged hs hn with rfl | ⟨rfl, rfl⟩
  · exact .leaves
  · rcases exists_field_of_tagged hs hm with h | ⟨-, rfl⟩
    · cases h
    · refine .identified fun fs gs hfs hgs _ => ?_
      rw [List.mem_singleton.mp hfs, List.mem_singleton.mp hgs]
      exact .object (fun _ _ _ _ => rfl) fun _ _ _ _ hs _ _ => eq_leaf_of_copy hs ▸ .leaf

/-- The tags of a shelf may stand in another order, and repeat. -/
theorem key_eq_iff_onlyMatches_tagged : ∃ fs gs,
    readField .item "" (tagged ["x", "y"]) declared = .ok (.object fs)
      ∧ readField .item "" (tagged ["y", "x", "y"]) declared = .ok (.object gs)
      ∧ Discerned declared (.object fs) (.object gs)
      ∧ ∀ rules o path, OnlyMatches (ofFields rules o path fs gs shelf.fields) := by
  have hread : readField .item "" (tagged ["x", "y"]) declared
      = .ok (.object (taggedFields ["x", "y"])) := rfl
  have hread' : readField .item "" (tagged ["y", "x", "y"]) declared
      = .ok (.object (taggedFields ["y", "x", "y"])) := rfl
  refine ⟨_, _, hread, hread', discerned_tagged _ _, ?_⟩
  exact (Node.key_eq_iff_onlyMatches (by decide) (canonical_tagged _) (canonical_tagged _) hread
    hread' (consistent_tagged _) (consistent_tagged _)).1 (by decide)

/-- A shelf with copies of one `id`, which stand in different places. -/
def doubled (places : List String) : Json := .obj [("copies", .arr (places.map (copy "1")))]

/-- A shelf with a member of its own. -/
def extra (v : Json) : Json := .obj [("extra", .obj [("weight", v)])]

/-- Shelves with one key that differ, or with two keys that do not: the first copy of an `id` is
another one, what holds nothing is there or not, `null` is there or not, and zeros differ in their
signs. -/
def pairs : List (Json × Json) :=
  [(doubled ["a", "b"], doubled ["b", "a"]), (.obj [], .obj [("note", .obj [])]),
    (.obj [], .obj [("tags", .arr [])]), (.obj [], .obj [("copies", .arr [])]),
    (.obj [], .obj [("extra", .obj [])]), (.obj [("extra", .obj [])], extra .null),
    (extra (.float (.zero true)), extra (.float (.zero false)))]

/-- The keys of two shelves are equal if and only if a walk over them finds nothing but matches. -/
def KeysTell (v w : Json) : Prop :=
  ∀ fs gs, readField .item "" v declared = .ok (.object fs) →
    readField .item "" w declared = .ok (.object gs) →
    ((Node.object fs).key = (Node.object gs).key
      ↔ OnlyMatches (ofFields { family := .item, shape := shelf } (Owner.root "") "" fs gs
        shelf.fields))

theorem not_key_eq_iff_onlyMatches : declared.everyObject alphanumeric
    ∧ ∀ c ∈ pairs, c.1.Canonical ∧ c.2.Canonical ∧ ¬KeysTell c.1 c.2 := by
  refine ⟨by decide, fun c hc => ?_⟩
  simp only [pairs, List.mem_cons, List.not_mem_nil, or_false] at hc
  rcases hc with rfl | rfl | rfl | rfl | rfl | rfl | rfl
  all_goals
    refine ⟨?_, ?_, fun h => ?_⟩
    · simp only [doubled, copy, extra, List.map_cons, List.map_nil, Json.Canonical,
        Json.CanonicalMembers, Json.CanonicalItems, Table.ascending_iff]
      decide
    · simp only [doubled, copy, extra, List.map_cons, List.map_nil, Json.Canonical,
        Json.CanonicalMembers, Json.CanonicalItems, Table.ascending_iff]
      decide
    · have htell := h _ _ rfl rfl
      revert htell
      unfold OnlyMatches
      decide

end Overlooked

end SnapshotDiff
