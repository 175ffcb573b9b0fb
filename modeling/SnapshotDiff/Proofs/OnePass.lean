import SnapshotDiff.Proofs.Change.Items
import SnapshotDiff.Proofs.Comparison
import SnapshotDiff.Proofs.Difference.Record

/-!
# The record in one pass

The record of two entities, defined without owners and groups: the declared fields are walked in
their order, depth first through nested objects, and every field and every collection says at once
what it contributes.  A member that is on both sides of a collection is modified if the same walk
over its fields finds anything.

## Main definitions

* `Change` — a change of an object, in a field or in a collection.
* `Change.ofFields` — the walk.
* `Rules.onePass` — the record of what the walk finds.

## Main results

* `Rules.diffEntities_eq_onePass` — for entities of a plain shape, findings put into groups and read
  again from the groups give the record of the walk.
* `Rules.reportable_of_diff_eq_ok` — a record tells only of reportable paths.
-/

namespace SnapshotDiff

open Finding (sides byKey byIdentity members presentObject?)

namespace ItemChange

/-- The change of one member of a collection.  Where the member is on both sides, it has changed if
the two differ. -/
def ofSides {α : Type} (json : α → Json) (differ : α → α → Bool) (_key : String) :
    Option α → Option α → List ItemChange
  | some a, none => [removed (json a)]
  | none, some b => [added (json b)]
  | some a, some b => if differ a b then [modified (json a) (json b)] else []
  | none, none => []

end ItemChange

/-- A change of an object: of one of its fields, or of the members of one of its collections. -/
inductive Change
  | field (change : FieldChange)
  | collection (change : CollectionChange)

namespace Change

/-- The change of a field. -/
def field? : Change → Option FieldChange
  | field change => some change
  | collection _ => none

/-- The change of a collection. -/
def collection? : Change → Option CollectionChange
  | field _ => none
  | collection change => some change

/-- The path of the field or the collection. -/
def path : Change → String
  | field change => change.path
  | collection change => change.name

/-- The changes of the members of the collection at a path, of which equal ones are told once. -/
def ofItems (path : String) (items : List ItemChange) : List Change :=
  if items.isEmpty then [] else [collection (items.foldl CollectionChange.push ⟨path, []⟩)]

mutual

/-- The changes of the fields of two objects at a path. -/
def ofFields (rules : Rules) (path : String) (old new : Table Node) :
    List (String × FieldShape) → List Change
  | [] => []
  | (name, s) :: rest =>
    (if rules.reportable (Path.child path name) then
      ofField rules name (Path.child path name) (old.get? name) (new.get? name) s
    else []) ++ ofFields rules path old new rest

/-- The changes of a field at a path. -/
def ofField (rules : Rules) (name path : String) (old new : Option Node) :
    FieldShape → List Change
  | .leaf _ =>
    (FieldChange.ofLeaves name path (old.bind Node.leaf?) (new.bind Node.leaf?)).map field
  | .object _ fields =>
    match presentObject? rules path old, presentObject? rules path new with
    | some fs, some gs => ofFields rules path fs gs fields
    | fs, gs =>
      (FieldChange.ofValues name path (fs.map fun fs => (Node.object fs).json)
        (gs.map fun gs => (Node.object gs).json) false).map field
  | .leaves _ | .objects _ _ none =>
    ofItems path (sides (ItemChange.ofSides Node.json fun _ _ => false) (byKey (members old))
      (byKey (members new)))
  | .objects _ fields (some identity) =>
    ofItems path
      (sides
        (ItemChange.ofSides (fun fs => (Node.object fs).json) fun fs gs =>
          !(ofFields rules path fs gs fields).isEmpty)
        (byIdentity identity (members old)) (byIdentity identity (members new)))
  | .free =>
    (FieldChange.ofFree rules path ((old.bind Node.free?).getD [])
      ((new.bind Node.free?).getD [])).map field

end

/-- The changes of fields among given changes. -/
theorem mem_filterMap_field? {cs : List Change} {c : FieldChange} :
    c ∈ cs.filterMap field? ↔ field c ∈ cs := by
  rw [List.mem_filterMap]
  constructor
  · rintro ⟨d, hd, hdc⟩
    cases d <;> simp only [field?, Option.some.injEq, reduceCtorEq] at hdc
    exact hdc ▸ hd
  · exact fun hc => ⟨_, hc, rfl⟩

/-- The changes of collections among given changes. -/
theorem mem_filterMap_collection? {cs : List Change} {c : CollectionChange} :
    c ∈ cs.filterMap collection? ↔ collection c ∈ cs := by
  rw [List.mem_filterMap]
  constructor
  · rintro ⟨d, hd, hdc⟩
    cases d <;> simp only [collection?, Option.some.injEq, reduceCtorEq] at hdc
    exact hdc ▸ hd
  · exact fun hc => ⟨_, hc, rfl⟩

/-- The record of given changes, if there are any. -/
def record? (cs : List Change) : Option ChangeRecord :=
  if cs.isEmpty then none else some ⟨cs.filterMap field?, cs.filterMap collection?⟩

end Change

/-- The record of the changes between two entities, in one pass. -/
def Rules.onePass (rules : Rules) (old new : Entity) : Option ChangeRecord :=
  Change.record? (Change.ofFields rules "" old.root new.root rules.shape.fields)

namespace Change

variable {rules : Rules} {path : String}

theorem ofFields_eq_flatMap (old new : Table Node) (fields : List (String × FieldShape)) :
    ofFields rules path old new fields = fields.flatMap fun f =>
      if rules.reportable (Path.child path f.1) then
        ofField rules f.1 (Path.child path f.1) (old.get? f.1) (new.get? f.1) f.2
      else [] := by
  induction fields with
  | nil => rw [ofFields]; rfl
  | cons f fields ih => rw [ofFields, ih, List.flatMap_cons]

/-! ### The walk and the tree -/

open Difference (anyTells items)

/-- The changes are those of the differences.  The predicate `below` holds of the paths of their
collections, and then collection changes are put together path by path. -/
structure Agree (below : String → Prop) (ds : List Difference) (cs : List Change) : Prop where
  fields : ds.filterMap Difference.change? = cs.filterMap field?
  tells : anyTells ds ↔ cs ≠ []
  names : ∀ c ∈ cs.filterMap collection?, below c.name
  collections : ∀ acc : List CollectionChange, (∀ c ∈ acc, ¬below c.name) →
    (ds.flatMap items).foldl (fun cs i => CollectionChange.pushTo i.1 i.2 cs) acc
      = acc ++ cs.filterMap collection?

namespace Agree

variable {below above : String → Prop} {ds es : List Difference} {cs bs : List Change}

theorem mono (h : Agree below ds cs) (himp : ∀ n, below n → above n) : Agree above ds cs where
  fields := h.fields
  tells := h.tells
  names c hc := himp _ (h.names c hc)
  collections acc hacc := h.collections acc fun c hc hbelow => hacc c hc (himp _ hbelow)

theorem nil : Agree below [] [] where
  fields := rfl
  tells := by simp [anyTells]
  names := by simp
  collections _ _ := (List.append_nil _).symm

/-- Blocks with different collections are put together one after the other. -/
theorem append (h : Agree below ds cs) (h' : Agree above es bs)
    (hdisj : ∀ n, below n → ¬above n) :
    Agree (fun n => below n ∨ above n) (ds ++ es) (cs ++ bs) where
  fields := by rw [List.filterMap_append, List.filterMap_append, h.fields, h'.fields]
  tells := by
    have happend : anyTells (ds ++ es) ↔ anyTells ds ∨ anyTells es := by
      simp only [Difference.anyTells_iff, List.mem_append, or_and_right, exists_or]
    rw [happend, h.tells, h'.tells]
    simp only [ne_eq, List.append_eq_nil_iff, not_and_or]
  names c hc := by
    rw [List.filterMap_append] at hc
    rcases List.mem_append.mp hc with hc | hc
    · exact Or.inl (h.names c hc)
    · exact Or.inr (h'.names c hc)
  collections acc hacc := by
    -- the second block is put behind the first, whose collections it does not share
    have hleft := h.collections acc fun c hc hbelow => hacc c hc (Or.inl hbelow)
    rw [List.flatMap_append, List.foldl_append, hleft, h'.collections, List.filterMap_append,
      List.append_assoc]
    intro c hc
    rcases List.mem_append.mp hc with hc | hc
    · exact fun habove => hacc c hc (Or.inr habove)
    · exact hdisj _ (h.names c hc)

theorem map_field (cs : List FieldChange) :
    Agree below (cs.map Difference.field) (cs.map Change.field) where
  fields := by simp [List.filterMap_map, Function.comp_def, Difference.change?, field?]
  tells := by
    cases cs with
    | nil => simp [anyTells]
    | cons c cs => simp [anyTells, Difference.tells]
  names := by simp [List.filterMap_map, Function.comp_def, collection?]
  collections acc _ := by
    have hitems : (cs.map Difference.field).flatMap items = [] := by
      apply List.flatMap_eq_nil_iff.mpr
      intro d hd
      obtain ⟨c, -, rfl⟩ := List.mem_map.mp hd
      rfl
    rw [hitems]
    simp [List.filterMap_map, Function.comp_def, collection?]

/-- A collection contributes its members. -/
theorem ofItems {its : List ItemChange} (hfields : ds.filterMap Difference.change? = [])
    (htells : anyTells ds ↔ its ≠ []) (hitems : ds.flatMap items = its.map (path, ·)) :
    Agree (· = path) ds (ofItems path its) := by
  by_cases hne : its = []
  · subst hne
    exact {
      fields := hfields
      tells := by simpa [Change.ofItems] using htells
      names := by simp [Change.ofItems]
      collections := fun acc _ => by rw [hitems]; exact (List.append_nil _).symm }
  · have hone : Change.ofItems path its
        = [Change.collection (its.foldl CollectionChange.push ⟨path, []⟩)] := by
      rw [Change.ofItems, if_neg (by simpa using hne)]
    rw [hone]
    exact {
      fields := hfields
      tells := ⟨fun _ => by simp, fun _ => htells.mpr hne⟩
      names := by simp [collection?, CollectionChange.name_foldl_push]
      collections := fun acc hacc => by
        rw [hitems, CollectionChange.foldl_pushTo hacc hne]
        rfl }

end Agree

/-- Members with their differences contribute the changes of the members. -/
theorem agree_sides {α : Type} {typeName : String} {json : α → Json} {differ : α → α → Bool}
    {both : String → α → α → List Difference} (olds news : List (String × α))
    (hfields : ∀ k a b, (both k a b).filterMap Difference.change? = [])
    (htells : ∀ k a b, anyTells (both k a b) ↔ differ a b)
    (hitems : ∀ k a b, (both k a b).flatMap items
      = if differ a b then [(path, .modified (json a) (json b))] else []) :
    Agree (· = path) (sides (Difference.ofSides typeName path json both) olds news)
      (ofItems path (sides (ItemChange.ofSides json differ) olds news)) := by
  -- key by key the differences contribute the changes
  have hone : ∀ k a b, (Difference.ofSides typeName path json both k a b).flatMap items
      = (ItemChange.ofSides json differ k a b).map (path, ·) := by
    intro k a b
    match a, b with
    | none, none | some a, none | none, some b => rfl
    | some a, some b =>
      rw [ItemChange.ofSides]
      exact (hitems k a b).trans (by split <;> rfl)
  have htell : ∀ k a b, (∃ d ∈ Difference.ofSides typeName path json both k a b, d.tells)
      ↔ ∃ i ∈ ItemChange.ofSides json differ k a b, True := by
    intro k a b
    match a, b with
    | none, none | some a, none | none, some b =>
      simp [Difference.ofSides, ItemChange.ofSides, Difference.tells]
    | some a, some b =>
      rw [Difference.ofSides, ← Difference.anyTells_iff, htells, ItemChange.ofSides]
      split <;> simp [*]
  have hfield : ∀ k a b,
      (Difference.ofSides typeName path json both k a b).filterMap Difference.change? = [] := by
    intro k a b
    match a, b with
    | none, none | some a, none | none, some b => rfl
    | some a, some b => exact hfields k a b
  refine Agree.ofItems ?_ ?_ ?_
  · rw [Finding.filterMap_sides]
    simp [sides, hfield]
  · rw [Difference.anyTells_iff, Finding.exists_mem_sides_congr htell]
    constructor
    · rintro ⟨i, hi, -⟩
      exact List.ne_nil_of_mem hi
    · intro hne
      obtain ⟨i, hi⟩ := List.exists_mem_of_ne_nil _ hne
      exact ⟨i, hi, trivial⟩
  · simp only [sides, List.flatMap_append, List.flatMap_assoc, hone, List.map_append,
      List.map_flatMap]

/-- Collections of fields with different names are different. -/
theorem agree_fields {fields : List (String × FieldShape)} {old new : Table Node}
    (halpha : alphanumeric (fields.map Prod.fst)) (hempty : ∀ f ∈ fields, Path.child path f.1 ≠ "")
    (ih : ∀ f ∈ fields, ∀ {name path : String} {old new : Option Node}, path ≠ "" →
      Agree (Path.within · path) (Difference.ofField rules name path old new f.2)
        (ofField rules name path old new f.2)) :
    Agree (fun n => ∃ f ∈ fields, Path.within n (Path.child path f.1))
      (Difference.ofFields rules path old new fields) (ofFields rules path old new fields) := by
  have hdots : ∀ f ∈ fields, '.' ∉ f.1.toList := fun f hf =>
    notMem_of_alphanumeric halpha (List.mem_map_of_mem hf) (by decide)
  -- what the induction over the fields needs of their names is kept for each tail
  have hnodup := nodup_of_alphanumeric halpha
  clear halpha
  induction fields with
  | nil =>
    rw [Difference.ofFields, ofFields]
    exact Agree.nil
  | cons f fields ih' =>
    obtain ⟨hfirst, hnodup⟩ := List.nodup_cons.mp hnodup
    obtain ⟨hdot, hdots⟩ := List.forall_mem_cons.mp hdots
    obtain ⟨hne, hempty⟩ := List.forall_mem_cons.mp hempty
    obtain ⟨hf, hfs⟩ := List.forall_mem_cons.mp ih
    have hhead : Agree (Path.within · (Path.child path f.1))
        (if rules.reportable (Path.child path f.1) then
          Difference.ofField rules f.1 (Path.child path f.1) (old.get? f.1) (new.get? f.1) f.2
        else [])
        (if rules.reportable (Path.child path f.1) then
          ofField rules f.1 (Path.child path f.1) (old.get? f.1) (new.get? f.1) f.2
        else []) := by
      split
      · exact hf hne
      · exact Agree.nil
    -- no collection lies below two fields
    have hdisj : ∀ n, Path.within n (Path.child path f.1) →
        ¬∃ g ∈ fields, Path.within n (Path.child path g.1) := by
      rintro n hn ⟨g, hg, hng⟩
      have heq := Path.eq_of_within_child hdot (hdots g hg) hn hng
      exact hfirst (heq ▸ List.mem_map_of_mem hg)
    rw [Difference.ofFields, ofFields]
    refine (hhead.append (ih' hempty hfs hdots hnodup) hdisj).mono fun n hn => ?_
    rcases hn with hn | ⟨g, hg, hng⟩
    · exact ⟨f, List.mem_cons_self, hn⟩
    · exact ⟨g, List.mem_cons_of_mem _ hg, hng⟩

theorem agree_ofField {s : FieldShape} (hs : s.everyObject alphanumeric) :
    ∀ {name path : String} {old new : Option Node}, path ≠ "" →
      Agree (Path.within · path) (Difference.ofField rules name path old new s)
        (ofField rules name path old new s) := by
  -- the collection at a path lies below it, and in sets no member is modified
  have hwithin : ∀ {path : String} {ds : List Difference} {cs : List Change},
      Agree (· = path) ds cs → Agree (Path.within · path) ds cs :=
    fun h => h.mono fun n hn => hn ▸ Path.within_self n
  have hsets : ∀ {typeName path : String} (olds news : List (String × Node)),
      Agree (Path.within · path)
        (sides (Difference.ofSides typeName path Node.json fun _ _ _ => []) olds news)
        (ofItems path (sides (ItemChange.ofSides Node.json fun _ _ => false) olds news)) :=
    fun olds news => hwithin (agree_sides olds news (fun _ _ _ => rfl)
      (fun _ _ _ => by simp [anyTells]) fun _ _ _ => rfl)
  induction s using FieldShape.fieldInduction with
  | leaf kind =>
    intro name path old new _
    rw [Difference.ofField, ofField]
    exact Agree.map_field _
  | object typeName fields ih =>
    intro name path old new hne
    obtain ⟨hnames, hfields⟩ := FieldShape.everyObject_object.mp hs
    rw [Difference.ofField.eq_def, ofField.eq_def]
    dsimp only
    cases presentObject? rules path old <;> cases presentObject? rules path new
    · exact Agree.map_field _
    · exact Agree.map_field _
    · exact Agree.map_field _
    · refine (agree_fields hnames (fun f _ => Path.child_ne_empty_of_ne hne f.1) fun f hf =>
        ih f hf (hfields f hf)).mono fun n hn => ?_
      obtain ⟨f, -, hnf⟩ := hn
      exact Path.within_trans hnf (Path.within_child hne f.1)
  | leaves kind =>
    intro name path old new _
    rw [Difference.ofField, ofField]
    exact hsets _ _
  | objects typeName fields identity ih =>
    intro name path old new hne
    rw [FieldShape.everyObject_objects] at hs
    obtain ⟨hnames, hfields⟩ := FieldShape.everyObject_object.mp hs
    cases identity with
    | none =>
      rw [Difference.ofField, ofField]
      exact hsets _ _
    | some identity =>
      rw [Difference.ofField, ofField]
      -- whether a member is modified is what the walk over its fields says
      have hinner : ∀ fs gs : Table Node, anyTells (Difference.ofFields rules path fs gs fields)
          ↔ !(ofFields rules path fs gs fields).isEmpty := by
        intro fs gs
        rw [(agree_fields hnames (fun f _ => Path.child_ne_empty_of_ne hne f.1) fun f hf =>
          ih f hf (hfields f hf)).tells]
        simp
      refine hwithin (agree_sides _ _ (fun _ _ _ => rfl) (fun k fs gs => ?_) fun k fs gs => ?_)
      · rw [← hinner]
        simp [anyTells, Difference.tells]
      · rw [List.flatMap_singleton, items]
        simp only [hinner]
  | free =>
    intro name path old new _
    rw [Difference.ofField, ofField]
    exact Agree.map_field _

/-! ### What the walk tells -/

/-- The change says something. -/
def IsTelling : Change → Prop
  | field change => change.kind.isChange
  | collection change => change.items ≠ [] ∧ ∀ i ∈ change.items, i.kind.isChange

theorem isTelling_of_mem_ofItems {items : List ItemChange} (h : ∀ i ∈ items, i.kind.isChange) :
    ∀ c ∈ ofItems path items, c.IsTelling ∧ c.path = path := by
  intro c hc
  unfold ofItems at hc
  split at hc
  · exact absurd hc List.not_mem_nil
  · next hne =>
    rw [List.mem_singleton.mp hc]
    have htold : (items.foldl CollectionChange.push ⟨path, []⟩).items ≠ [] :=
      CollectionChange.items_ne_nil_of_ne_nil (by simpa using hne) path
    refine ⟨⟨htold, fun j hj => ?_⟩, CollectionChange.name_foldl_push _ _⟩
    rcases CollectionChange.mem_items_foldl_push hj with hj | hj
    · exact absurd hj List.not_mem_nil
    · exact h j hj

theorem isChange_of_mem_sides {α : Type} {json : α → Json} {differ : α → α → Bool}
    {olds news : List (String × α)} :
    ∀ i ∈ sides (ItemChange.ofSides json differ) olds news, i.kind.isChange := by
  have hone : ∀ {k a b}, ∀ i ∈ ItemChange.ofSides json differ k a b, i.kind.isChange := by
    intro k a b i hi
    match a, b with
    | none, none => exact absurd hi List.not_mem_nil
    | some a, none | none, some b => exact List.mem_singleton.mp hi ▸ rfl
    | some a, some b =>
      rw [ItemChange.ofSides] at hi
      split at hi
      · exact List.mem_singleton.mp hi ▸ rfl
      · exact absurd hi List.not_mem_nil
  intro i hi
  obtain ⟨k, a, b, -, -, hi⟩ := Finding.exists_of_mem_sides hi
  exact hone i hi

theorem isTelling_of_mem_fields {fields : List (String × FieldShape)} {old new : Table Node}
    (ih : ∀ f ∈ fields, ∀ {name path : String} {old new : Option Node}, rules.reportable path →
      ∀ c ∈ ofField rules name path old new f.2, c.IsTelling ∧ rules.reportable c.path) :
    ∀ c ∈ ofFields rules path old new fields, c.IsTelling ∧ rules.reportable c.path := by
  intro c hc
  rw [ofFields_eq_flatMap] at hc
  obtain ⟨f, hf, hc⟩ := List.mem_flatMap.mp hc
  split at hc
  · next hreportable => exact ih f hf hreportable c hc
  · exact absurd hc List.not_mem_nil

theorem isTelling_of_mem_ofField (s : FieldShape) :
    ∀ {name path : String} {old new : Option Node}, rules.reportable path →
      ∀ c ∈ ofField rules name path old new s, c.IsTelling ∧ rules.reportable c.path := by
  -- a field tells by its own changes, a collection by those of its members
  have hmap : ∀ {cs : List FieldChange},
      (∀ c ∈ cs, c.kind.isChange ∧ rules.reportable c.path) →
        ∀ c ∈ cs.map field, c.IsTelling ∧ rules.reportable c.path := by
    intro cs hcs c hc
    obtain ⟨d, hd, rfl⟩ := List.mem_map.mp hc
    exact hcs d hd
  have hitems : ∀ {path : String} {items : List ItemChange}, rules.reportable path →
      (∀ i ∈ items, i.kind.isChange) →
        ∀ c ∈ ofItems path items, c.IsTelling ∧ rules.reportable c.path := by
    intro path items hpath hitems c hc
    obtain ⟨htelling, hname⟩ := isTelling_of_mem_ofItems hitems c hc
    rw [hname]
    exact ⟨htelling, hpath⟩
  induction s using FieldShape.fieldInduction with
  | leaf kind =>
    intro name path old new hpath
    rw [ofField]
    refine hmap fun c hc => ⟨FieldChange.isChange_of_mem_ofLeaves hc, ?_⟩
    rwa [FieldChange.path_of_mem_ofLeaves hc]
  | object typeName fields ih =>
    intro name path old new hpath
    rw [ofField.eq_def]
    dsimp only
    split
    · exact isTelling_of_mem_fields ih
    · refine hmap fun c hc => ⟨FieldChange.isChange_of_mem_ofValues hc, ?_⟩
      rwa [FieldChange.path_of_mem_ofValues hc]
  | leaves kind =>
    intro name path old new hpath
    rw [ofField]
    exact hitems hpath isChange_of_mem_sides
  | objects typeName fields identity ih =>
    intro name path old new hpath
    cases identity with
    | none | some identity =>
      rw [ofField]
      exact hitems hpath isChange_of_mem_sides
  | free =>
    intro name path old new hpath
    rw [ofField]
    refine hmap fun c hc => ?_
    have hreportable := FieldChange.isReportable_of_mem_ofFree hc
    exact ⟨hreportable.isChange, hreportable.reportable⟩

/-- **The walk tells only what says something, and only of reportable paths.** -/
theorem isTelling_of_mem_ofFields {fields : List (String × FieldShape)} {old new : Table Node} :
    ∀ c ∈ ofFields rules path old new fields, c.IsTelling ∧ rules.reportable c.path :=
  isTelling_of_mem_fields fun f _ => isTelling_of_mem_ofField f.2

/-- From changes that say something nothing is left out. -/
theorem of?_eq_record? {cs : List Change} (h : ∀ c ∈ cs, c.IsTelling) :
    ChangeRecord.of? (cs.filterMap field?) (cs.filterMap collection?) = record? cs := by
  have hfields : ∀ f ∈ cs.filterMap field?, f.kind.isChange :=
    fun f hf => h _ (mem_filterMap_field?.mp hf)
  have hcollections : ∀ c ∈ cs.filterMap collection?,
      c.items ≠ [] ∧ ∀ i ∈ c.items, i.kind.isChange :=
    fun c hc => h _ (mem_filterMap_collection?.mp hc)
  have hempty : ((cs.filterMap field?).isEmpty && (cs.filterMap collection?).isEmpty)
      = cs.isEmpty := by
    cases cs with
    | nil => rfl
    | cons c cs => cases c <;> simp [field?, collection?]
  rw [ChangeRecord.of?_eq hfields hcollections, hempty, record?]

end Change

/-- Whatever is read under rules with an addressable shape fits the shape. -/
theorem Entity.fits_of_isAddressable {rules : Rules} {s : Option Json} {e : Entity}
    (hs : rules.shape.isAddressable) (h : Entity.ofSnapshot rules s = .ok e) :
    e.Fits (fun _ => True) rules :=
  Entity.fits_ofSnapshot Json.hereditary_true (Shape.isAlphanumeric_of_isAddressable hs)
    (fun _ _ _ _ => trivial) (fun _ _ => trivial) h

namespace Rules

/-- Findings of entities that fit an addressable shape give the record of the walk. -/
theorem record?_ofFindings_eq_onePass {rules : Rules} {P : Json → Prop} {old new : Entity}
    (hs : rules.shape.isAddressable) (hold : old.Fits P rules) (hnew : new.Fits P rules) :
    (Correlation.ofFindings (rules.findings old new)).record? = rules.onePass old new := by
  obtain ⟨hnames, hfields⟩ :=
    FieldShape.everyObject_object.mp (Shape.isAlphanumeric_of_isAddressable hs)
  -- the walk that makes findings is a walk that makes a tree, and the tree agrees with the one pass
  have hagree : Change.Agree
      (fun n => ∃ f ∈ rules.shape.fields, Path.within n (Path.child "" f.1))
      (Difference.ofFields rules "" old.root new.root rules.shape.fields)
      (Change.ofFields rules "" old.root new.root rules.shape.fields) :=
    Change.agree_fields hnames (Shape.ne_empty_of_isAddressable hs) fun f hf =>
      Change.agree_ofField (hfields f hf)
  have hcollections := hagree.collections [] (by simp)
  rw [findings, Finding.ofFields_eq_findings,
    Difference.record?_eq (Difference.sound_ofFields hs hold hnew), hagree.fields, hcollections,
    List.nil_append, onePass]
  exact Change.of?_eq_record? fun c hc => (Change.isTelling_of_mem_ofFields c hc).1

/-- The comparison of two snapshots succeeds if both can be read, and gives the record of the
walk. -/
theorem diff_eq_ok_iff {rules : Rules} (hs : rules.shape.isAddressable) {s t : Option Json}
    {r : Option ChangeRecord} : rules.diff s t = .ok r ↔ ∃ old new,
      Entity.ofSnapshot rules s = .ok old ∧ Entity.ofSnapshot rules t = .ok new
        ∧ r = rules.onePass old new := by
  have hrecord : ∀ {old new}, Entity.ofSnapshot rules s = .ok old →
      Entity.ofSnapshot rules t = .ok new →
        (Correlation.ofFindings (rules.findings old new)).record? = rules.onePass old new :=
    fun hold hnew => record?_ofFindings_eq_onePass hs (Entity.fits_of_isAddressable hs hold)
      (Entity.fits_of_isAddressable hs hnew)
  rw [diff_eq_ok]
  constructor
  · rintro ⟨old, new, hold, hnew, rfl⟩
    exact ⟨old, new, hold, hnew, hrecord hold hnew⟩
  · rintro ⟨old, new, hold, hnew, rfl⟩
    exact ⟨old, new, hold, hnew, (hrecord hold hnew).symm⟩

/-- **A record tells only of reportable paths.** -/
theorem reportable_of_diff_eq_ok {rules : Rules} (hs : rules.shape.isAddressable)
    {s t : Option Json} {r : ChangeRecord} (h : rules.diff s t = .ok (some r)) :
    (∀ c ∈ r.fields, rules.reportable c.path) ∧ ∀ c ∈ r.collections, rules.reportable c.name := by
  obtain ⟨old, new, -, -, hrecord⟩ := (diff_eq_ok_iff hs).mp h
  have hall : ∀ c ∈ Change.ofFields rules "" old.root new.root rules.shape.fields,
      rules.reportable c.path := fun c hc => (Change.isTelling_of_mem_ofFields c hc).2
  rw [onePass, Change.record?] at hrecord
  split at hrecord
  · exact absurd hrecord (by simp)
  · obtain rfl := Option.some.inj hrecord
    exact ⟨fun f hf => hall _ (Change.mem_filterMap_field?.mp hf),
      fun c hc => hall _ (Change.mem_filterMap_collection?.mp hc)⟩

/-- **The record in one pass.**  Of two entities read under rules with a plain shape, the findings,
put into groups, give the record that one walk over the declared fields gives. -/
theorem diffEntities_eq_onePass {rules : Rules} {s t : Option Json} {old new : Entity}
    (hs : rules.shape.isPlain) (hold : Entity.ofSnapshot rules s = .ok old)
    (hnew : Entity.ofSnapshot rules t = .ok new) :
    rules.diffEntities old new = .ok (rules.onePass old new) := by
  rw [diffEntities_eq (Entity.family_of_ofSnapshot hold) (Entity.family_of_ofSnapshot hnew)]
  have haddressable := Shape.isAddressable_of_isPlain hs
  exact congrArg Except.ok (record?_ofFindings_eq_onePass haddressable
    (Entity.fits_of_isAddressable haddressable hold)
    (Entity.fits_of_isAddressable haddressable hnew))

end Rules

/-! ### Two zeros -/

namespace Zeros

/-- Objects with a collection of numbers. -/
def rules : Rules where
  family := .item
  shape := ⟨"Zeros", [("n", .leaves .number)]⟩

/-- A zero of each sign. -/
def snapshot : Json := .obj [("n", .arr [.float (.zero false), .float (.zero true)])]

/-- The zeros have different keys. -/
def entity : Entity :=
  ⟨.item, [("n", .collection [.leaf (.float (.zero false)) "0", .leaf (.float (.zero true)) "-0"])]⟩

theorem diffEntities_snapshot :
    rules.diffEntities entity ⟨.item, []⟩ = .ok (rules.onePass entity ⟨.item, []⟩) :=
  Rules.diffEntities_eq_onePass (s := some snapshot) (t := none) (by decide) rfl rfl

/-- Members with different keys are one change if their values are equal: two zeros leave the
collection, and the record tells of one. -/
theorem removed_once : rules.shape.isPlain
    ∧ Entity.ofSnapshot rules (some snapshot) = .ok entity
    ∧ Entity.ofSnapshot rules none = .ok ⟨.item, []⟩
    ∧ (Finding.onlyIn (byKey (members (entity.root.get? "n"))) (byKey (members none))).map Prod.fst
      = ["0", "-0"]
    ∧ rules.diffEntities entity ⟨.item, []⟩
      = .ok (some ⟨[], [⟨"n", [.removed (.float (.zero false))]⟩]⟩) :=
  ⟨by decide, rfl, rfl, rfl, rfl⟩

end Zeros

end SnapshotDiff
