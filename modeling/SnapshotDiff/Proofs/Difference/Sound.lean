import SnapshotDiff.Proofs.Difference.Tree
import SnapshotDiff.Proofs.Node.Members
import SnapshotDiff.Proofs.Path

/-!
# Steps of members

The *step* of a member is the path of its collection with its key.  The members of one object differ
in their steps: within a collection no key is there twice, and the paths of two collections differ
because names do and because no name has a dot.  Moreover a step can be read back from a text that
begins with it: there is no bracket in a path, and a key is delimited.

## Main definitions

* `Difference.step?` — the step of a member.
* `Difference.Sound` — steps differ and can be read back, at every depth.

## Main results

* `Difference.sound_ofFields_of_legible` — the differences of legible objects by an addressable
  shape are sound.
* `Difference.sound_ofFields` — so are those of objects that fit the shape.
-/

namespace SnapshotDiff

open Finding (sides sideKeys byKey byIdentity members presentObject?)

namespace Difference

/-- The path of the collection that the member belongs to, with the key of the member. -/
def step? : Difference → Option (String × String)
  | field _ => none
  | oneSided _ path key _ _ => some (path, key)
  | twoSided _ path key _ _ _ => some (path, key)

/-- The steps of the members. -/
def steps (ds : List Difference) : List (String × String) := ds.filterMap step?

/-- The step can be read back from a text that begins with it. -/
def IsReadable (s : String × String) : Prop := '[' ∉ s.1.toList ∧ Text.Delimited s.2.toList

/-- Steps differ and can be read back, at every depth, and fields do change. -/
inductive Sound : List Difference → Prop
  | intro {ds : List Difference} (nodup : (steps ds).Nodup)
    (readable : ∀ s ∈ steps ds, IsReadable s) (isChange : ∀ c, field c ∈ ds → c.kind.isChange)
    (inner : ∀ {typeName path key old new es}, twoSided typeName path key old new es ∈ ds →
      Sound es) : Sound ds

namespace Sound

variable {ds : List Difference}

theorem nodup (h : Sound ds) : (steps ds).Nodup := by
  cases h with
  | intro nodup _ _ _ => exact nodup

theorem readable (h : Sound ds) : ∀ s ∈ steps ds, IsReadable s := by
  cases h with
  | intro _ readable _ _ => exact readable

theorem isChange (h : Sound ds) : ∀ c, field c ∈ ds → c.kind.isChange := by
  cases h with
  | intro _ _ isChange _ => exact isChange

theorem inner (h : Sound ds) {typeName path key : String} {old new : Json} {es : List Difference}
    (hmem : twoSided typeName path key old new es ∈ ds) : Sound es := by
  cases h with
  | intro _ _ _ inner => exact inner hmem

/-- Changes of fields have no steps. -/
theorem map_field {cs : List FieldChange} (h : ∀ c ∈ cs, c.kind.isChange) :
    Sound (cs.map field) := by
  have hsteps : steps (cs.map field) = [] := by
    apply List.filterMap_eq_nil_iff.mpr
    intro d hd
    obtain ⟨c, -, rfl⟩ := List.mem_map.mp hd
    rfl
  refine .intro (by simp [hsteps]) (by simp [hsteps]) (fun c hc => ?_) fun hmem => ?_
  · obtain ⟨c', hc', heq⟩ := List.mem_map.mp hc
    cases heq
    exact h c hc'
  · obtain ⟨c, -, heq⟩ := List.mem_map.mp hmem
    cases heq

theorem nil : Sound [] := .intro List.nodup_nil (by simp [steps]) (by simp) (by simp)

/-- Blocks without a common step make up one that is sound. -/
theorem flatMap {α : Type} {l : List α} {f : α → List Difference} (h : ∀ a ∈ l, Sound (f a))
    (hdisj : l.Pairwise fun a b => List.Disjoint (steps (f a)) (steps (f b))) :
    Sound (l.flatMap f) := by
  have hsteps : steps (l.flatMap f) = l.flatMap fun a => steps (f a) := List.filterMap_flatMap
  refine .intro ?_ (fun s hs => ?_) (fun c hc => ?_) fun hmem => ?_
  · rw [hsteps, List.nodup_flatMap]
    exact ⟨fun a ha => (h a ha).nodup, hdisj⟩
  · rw [hsteps] at hs
    obtain ⟨a, ha, hs⟩ := List.mem_flatMap.mp hs
    exact (h a ha).readable s hs
  · obtain ⟨a, ha, hc⟩ := List.mem_flatMap.mp hc
    exact (h a ha).isChange c hc
  · obtain ⟨a, ha, hmem⟩ := List.mem_flatMap.mp hmem
    exact (h a ha).inner hmem

end Sound

/-! ### Collections -/

/-- The members of a collection differ in their keys. -/
theorem sound_sides {α : Type} {typeName path : String} {json : α → Json}
    {both : String → α → α → List Difference} {olds news : List (String × α)}
    (hold : (olds.map Prod.fst).Nodup) (hnew : (news.map Prod.fst).Nodup)
    (hpath : '[' ∉ path.toList)
    (holds : ∀ m ∈ olds, Text.Delimited m.1.toList) (hnews : ∀ m ∈ news, Text.Delimited m.1.toList)
    (hboth : ∀ k a b, (k, a) ∈ olds → (k, b) ∈ news →
      Sound (both k a b) ∧ ∀ s ∈ steps (both k a b), s = (path, k)) :
    Sound (sides (ofSides typeName path json both) olds news)
      ∧ ∀ s ∈ steps (sides (ofSides typeName path json both) olds news), s.1 = path := by
  have hdelimited : ∀ k ∈ sideKeys olds news, Text.Delimited k.toList := by
    intro k hk
    rcases Finding.mem_sideKeys.mp hk with hk | hk
    · obtain ⟨m, hm, rfl⟩ := List.mem_map.mp hk
      exact holds m hm
    · obtain ⟨m, hm, rfl⟩ := List.mem_map.mp hk
      exact hnews m hm
  have hone : ∀ k ∈ sideKeys olds news,
      Sound (ofSides typeName path json both k (olds.lookup k) (news.lookup k))
        ∧ ∀ s ∈ steps (ofSides typeName path json both k (olds.lookup k) (news.lookup k)),
          s = (path, k) := by
    intro k hk
    have hsingle : ∀ kind value, Sound [oneSided typeName path k kind value]
        ∧ ∀ s ∈ steps [oneSided typeName path k kind value], s = (path, k) := by
      intro kind value
      have hsteps : steps [oneSided typeName path k kind value] = [(path, k)] := rfl
      refine ⟨.intro ?_ (fun s hs => ?_) (by simp) (by simp), ?_⟩
      · rw [hsteps]
        exact List.nodup_singleton _
      · rw [hsteps, List.mem_singleton] at hs
        exact hs ▸ ⟨hpath, hdelimited k hk⟩
      · rw [hsteps]
        exact fun s hs => List.mem_singleton.mp hs
    cases ha : olds.lookup k with
    | none =>
      cases hb : news.lookup k with
      | none => exact ⟨Sound.nil, by simp [ofSides, steps]⟩
      | some b => exact hsingle _ _
    | some a =>
      cases hb : news.lookup k with
      | none => exact hsingle _ _
      | some b =>
        exact hboth k a b (List.mem_of_lookup_eq_some ha) (List.mem_of_lookup_eq_some hb)
  rw [Finding.sides_eq_flatMap hold hnew]
  constructor
  · refine Sound.flatMap (fun k hk => (hone k hk).1) ?_
    refine (Finding.nodup_sideKeys hold hnew).imp_of_mem fun {k l} hk hl hkl => ?_
    intro s hs hs'
    have h := (hone k hk).2 s hs
    rw [(hone l hl).2 s hs'] at h
    exact hkl (Prod.mk.inj h).2.symm
  · intro s hs
    rw [steps, List.filterMap_flatMap] at hs
    obtain ⟨k, hk, hs⟩ := List.mem_flatMap.mp hs
    rw [(hone k hk).2 s hs]

variable {rules : Rules}

/-! ### Fields -/

/-- What has to be shown of the differences of a field at a path. -/
def FieldSound (rules : Rules) (s : FieldShape) : Prop :=
  ∀ {name path : String} {old new : Option Node}, path ≠ "" → '[' ∉ path.toList →
    (∀ n ∈ old, n.Legible) → (∀ n ∈ new, n.Legible) →
      Sound (ofField rules name path old new s)
        ∧ ∀ st ∈ steps (ofField rules name path old new s), Path.within st.1 path

/-- Fields of different names have no step in common, because steps lie below their fields. -/
theorem sound_fields {fields : List (String × FieldShape)} {path : String} {old new : Table Node}
    (halpha : alphanumeric (fields.map Prod.fst)) (hne : ∀ f ∈ fields, Path.child path f.1 ≠ "")
    (ih : ∀ f ∈ fields, FieldSound rules f.2) (hpath : '[' ∉ path.toList)
    (hold : (Node.object old).Legible) (hnew : (Node.object new).Legible) :
    Sound (ofFields rules path old new fields)
      ∧ ∀ st ∈ steps (ofFields rules path old new fields),
        ∃ f ∈ fields, Path.within st.1 (Path.child path f.1) := by
  have hone : ∀ f ∈ fields,
      Sound (if rules.reportable (Path.child path f.1) then
        ofField rules f.1 (Path.child path f.1) (old.get? f.1) (new.get? f.1) f.2 else [])
      ∧ ∀ st ∈ steps (if rules.reportable (Path.child path f.1) then
        ofField rules f.1 (Path.child path f.1) (old.get? f.1) (new.get? f.1) f.2 else []),
          Path.within st.1 (Path.child path f.1) := by
    intro f hf
    have hbracket : '[' ∉ (Path.child path f.1).toList :=
      Path.notMem_child hpath
        (notMem_of_alphanumeric halpha (List.mem_map_of_mem hf) (by decide)) (by decide)
    split
    · exact ih f hf (hne f hf) hbracket (fun _ hn => hold.field hn) fun _ hn => hnew.field hn
    · exact ⟨Sound.nil, by simp [steps]⟩
  rw [ofFields_eq_flatMap]
  constructor
  · refine Sound.flatMap (fun f hf => (hone f hf).1) ?_
    have hnodup := nodup_of_alphanumeric halpha
    rw [List.nodup_iff_pairwise_ne, List.pairwise_map] at hnodup
    refine hnodup.imp_of_mem fun {f g} hf hg hfg => ?_
    intro st hst hst'
    have heq := eq_of_within_fields halpha hf hg ((hone f hf).2 st hst) ((hone g hg).2 st hst')
    exact hfg (congrArg Prod.fst heq)
  · intro st hst
    rw [steps, List.filterMap_flatMap] at hst
    obtain ⟨f, hf, hst⟩ := List.mem_flatMap.mp hst
    exact ⟨f, hf, (hone f hf).2 st hst⟩

theorem sound_ofField {s : FieldShape} (hs : s.everyObject alphanumeric) :
    FieldSound rules s := by
  -- changes of fields have no steps
  have hfieldsOnly : ∀ {cs : List FieldChange} {path : String}, (∀ c ∈ cs, c.kind.isChange) →
      Sound (cs.map field) ∧ ∀ st ∈ steps (cs.map field), Path.within st.1 path := by
    intro cs path hcs
    refine ⟨Sound.map_field hcs, fun st hst => ?_⟩
    obtain ⟨d, hd, hstep⟩ := List.mem_filterMap.mp hst
    obtain ⟨c, -, rfl⟩ := List.mem_map.mp hd
    exact absurd hstep (by simp [step?])
  have hwithin : ∀ {ds : List Difference} {path : String},
      (Sound ds ∧ ∀ st ∈ steps ds, st.1 = path) →
        Sound ds ∧ ∀ st ∈ steps ds, Path.within st.1 path := by
    rintro ds path ⟨hds, hsteps⟩
    exact ⟨hds, fun st hst => hsteps st hst ▸ Path.within_self _⟩
  have hsets : ∀ {typeName path : String} {old new : Option Node}, '[' ∉ path.toList →
      (∀ n ∈ old, n.Legible) → (∀ n ∈ new, n.Legible) →
        Sound (sides (ofSides typeName path Node.json fun _ _ _ => []) (byKey (members old))
          (byKey (members new)))
        ∧ ∀ st ∈ steps (sides (ofSides typeName path Node.json fun _ _ _ => [])
          (byKey (members old)) (byKey (members new))), Path.within st.1 path := by
    intro typeName path old new hpath hold hnew
    refine hwithin (sound_sides (Finding.nodup_keys_byKey _) (Finding.nodup_keys_byKey _) hpath
      (Node.delimited_of_mem_byKey (Node.legible_of_mem_members hold))
      (Node.delimited_of_mem_byKey (Node.legible_of_mem_members hnew)) ?_)
    exact fun k a b _ _ => ⟨Sound.nil, by simp [steps]⟩
  induction s using FieldShape.fieldInduction with
  | leaf kind =>
    intro name path old new hne hpath hold hnew
    rw [ofField]
    exact hfieldsOnly fun c hc => FieldChange.isChange_of_mem_ofLeaves hc
  | object typeName fields ih =>
    intro name path old new hne hpath hold hnew
    obtain ⟨hnames, hfields⟩ := FieldShape.everyObject_object.mp hs
    rw [ofField.eq_def]
    dsimp only
    split
    · next fs gs hfs hgs =>
      obtain ⟨hsound, hbelow⟩ := sound_fields hnames
        (fun f _ => Path.child_ne_empty_of_ne hne f.1) (fun f hf => ih f hf (hfields f hf)) hpath
        (hold _ (Node.eq_object_of_presentObject? hfs))
        (hnew _ (Node.eq_object_of_presentObject? hgs))
      refine ⟨hsound, fun st hst => ?_⟩
      obtain ⟨f, hf, hwith⟩ := hbelow st hst
      exact Path.within_trans hwith (Path.within_child hne f.1)
    · exact hfieldsOnly fun c hc => FieldChange.isChange_of_mem_ofValues hc
  | leaves kind =>
    intro name path old new hne hpath hold hnew
    rw [ofField]
    exact hsets hpath hold hnew
  | objects typeName fields identity ih =>
    intro name path old new hne hpath hold hnew
    rw [FieldShape.everyObject_objects] at hs
    obtain ⟨hnames, hfields⟩ := FieldShape.everyObject_object.mp hs
    cases identity with
    | none =>
      rw [ofField]
      exact hsets hpath hold hnew
    | some identity =>
      rw [ofField]
      have holds := Node.legible_of_mem_members hold
      have hnews := Node.legible_of_mem_members hnew
      have hdelim : ∀ e ∈ byIdentity identity (members old), Text.Delimited e.1.toList :=
        Node.delimited_of_mem_byIdentity holds
      refine hwithin (sound_sides (Finding.nodup_keys_byIdentity _ _)
        (Finding.nodup_keys_byIdentity _ _) hpath hdelim
        (Node.delimited_of_mem_byIdentity hnews) fun k fs gs hfs hgs => ?_)
      have hinner := sound_fields hnames (fun f _ => Path.child_ne_empty_of_ne hne f.1)
        (fun f hf => ih f hf (hfields f hf)) hpath
        (holds _ (Node.exists_of_mem_byIdentity hfs).1)
        (hnews _ (Node.exists_of_mem_byIdentity hgs).1)
      have hstep : ∀ st ∈ steps [twoSided typeName path k (Node.object fs).json
          (Node.object gs).json (ofFields rules path fs gs fields)], st = (path, k) :=
        fun st hst => List.mem_singleton.mp hst
      refine ⟨.intro (List.nodup_singleton _) (fun st hst => ?_) (by simp) fun hmem => ?_, hstep⟩
      · exact hstep st hst ▸ ⟨hpath, hdelim _ hfs⟩
      · cases List.mem_singleton.mp hmem
        exact hinner.1
  | free =>
    intro name path old new hne hpath hold hnew
    rw [ofField]
    exact hfieldsOnly fun c hc => (FieldChange.isReportable_of_mem_ofFree hc).isChange

/-- **The differences of legible objects by an addressable shape are sound.**  The objects may have
been read by another shape. -/
theorem sound_ofFields_of_legible {s : Shape} {old new : Table Node} (hs : s.isAddressable)
    (hold : (Node.object old).Legible) (hnew : (Node.object new).Legible) :
    Sound (ofFields rules "" old new s.fields) := by
  obtain ⟨hnames, hfields⟩ :=
    FieldShape.everyObject_object.mp (Shape.isAlphanumeric_of_isAddressable hs)
  have hne : ∀ f ∈ s.fields, Path.child "" f.1 ≠ "" := Shape.ne_empty_of_isAddressable hs
  have hfield : ∀ f ∈ s.fields, FieldSound rules f.2 := fun f hf => sound_ofField (hfields f hf)
  exact (sound_fields hnames hne hfield (by decide) hold hnew).1

/-- The differences of objects that fit an addressable shape are sound. -/
theorem sound_ofFields {P : Json → Prop} {s : Shape} {old new : Table Node} (hs : s.isAddressable)
    (hold : Node.Fits P (.object s.typeName s.fields) (.object old))
    (hnew : Node.Fits P (.object s.typeName s.fields) (.object new)) :
    Sound (ofFields rules "" old new s.fields) := by
  have halpha := Shape.isAlphanumeric_of_isAddressable hs
  exact sound_ofFields_of_legible hs (hold.legible halpha) (hnew.legible halpha)

end Difference

end SnapshotDiff
