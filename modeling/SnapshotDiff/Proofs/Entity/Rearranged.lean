import SnapshotDiff.Proofs.Entity.Reading
import SnapshotDiff.Proofs.Node.Agree

/-!
# Rearranged snapshots

A snapshot whose declared collections have their members in another order, or repeated, or with
`null` items between them, is read as an entity that agrees with that of the snapshot itself.

## Main definitions

* `Rearranged` — the relation of values, along a declaration.
* `Node.Follows` — if the first value is read, so is the second one, as a node that agrees.

## Main results

* `Rearranged.follows` — **rearranged values are read as nodes that agree.**
-/

namespace SnapshotDiff

open Finding (identityKey)

/-- The second value is the first one with the declared collections inside it rearranged: their
items that are not `null` are paired, and the items of each pair are rearranged in turn.  So the
order of the items, their repetition, and `null` items do not matter.  What an object has beside its
declared fields is not looked at. -/
inductive Rearranged : FieldShape → Json → Json → Prop
  | refl {s : FieldShape} {v : Json} : Rearranged s v v
  | object {typeName : String} {fields : List (String × FieldShape)} {ms ns : Table Json}
    (keys : ms.keys = ns.keys)
    (fits : ∀ name s v w, (name, s) ∈ fields → ms.get? name = some v → ns.get? name = some w →
      Rearranged s v w) : Rearranged (.object typeName fields) (.obj ms) (.obj ns)
  | collection {s element : FieldShape} {vs ws : List Json} (pairs : List (Json × Json))
    (declared : s.element? = some element)
    (left : ∀ v, v ∈ pairs.map Prod.fst ↔ v ∈ vs ∧ v ≠ .null)
    (right : ∀ w, w ∈ pairs.map Prod.snd ↔ w ∈ ws ∧ w ≠ .null)
    (items : ∀ p ∈ pairs, Rearranged element p.1 p.2) : Rearranged s (.arr vs) (.arr ws)

theorem Rearranged.null_iff {s : FieldShape} {v w : Json} (h : Rearranged s v w) :
    v = .null ↔ w = .null := by
  cases h with
  | refl => exact Iff.rfl
  | object => simp
  | collection => simp

namespace Rearranged

/-- Every item that is not `null`, paired with itself. -/
def diagonal (vs : List Json) : List (Json × Json) :=
  (vs.filter (!·.isNull)).map fun v => (v, v)

theorem mem_map_diagonal {vs : List Json} {f : Json × Json → Json} (hf : ∀ v, f (v, v) = v)
    (v : Json) : v ∈ (diagonal vs).map f ↔ v ∈ vs ∧ v ≠ .null := by
  have hid : (f ∘ fun v : Json => (v, v)) = id := funext hf
  rw [diagonal, List.map_map, hid, List.map_id, List.mem_filter, Bool.not_eq_true',
    ← Bool.not_eq_true, Json.isNull_eq_true_iff]

/-- Arrays with the same items are rearranged. -/
theorem of_same_items {s element : FieldShape} (hs : s.element? = some element)
    {vs ws : List Json} (h : ∀ v, v ∈ vs ↔ v ∈ ws) : Rearranged s (.arr vs) (.arr ws) := by
  refine .collection (diagonal vs) hs (mem_map_diagonal fun _ => rfl) (fun w => ?_) fun p hp => ?_
  · rw [← h w]
    exact mem_map_diagonal (fun _ => rfl) w
  · obtain ⟨v, -, rfl⟩ := List.mem_map.mp hp
    exact .refl

end Rearranged

namespace Shape

/-- In every object of the shape the names of fields are distinct. -/
def hasDistinctNames (s : Shape) : Bool :=
  (FieldShape.object s.typeName s.fields).everyObject fun names => decide names.Nodup

end Shape

namespace Node

variable {family : Family} {s element : FieldShape} {v w : Json} {n : Node} {path : String}

/-! ### Members told apart -/

theorem Distinct.field {typeName name : String} {fields : List (String × FieldShape)}
    {fs : Table Node} (h : Distinct (.object typeName fields) (.object fs))
    (hs : (name, s) ∈ fields) (hn : fs.get? name = some n) : Distinct s n := by
  cases h with
  | object fits => exact fits name s n hs hn

theorem Distinct.of_mem {ns : List Node} (h : Distinct s (.collection ns))
    (hs : s.element? = some element) (hn : n ∈ ns) : Distinct element n := by
  cases h with
  | collection declared members =>
    obtain rfl := Option.some.inj (hs.symm.trans declared)
    exact members n hn
  | leaf | free => simp [FieldShape.element?] at hs

/-- Of distinct members there is one of each identity. -/
theorem Distinct.eq_of_identityKey_eq {ns : List Node} {identity : String} {fs gs : Table Node}
    (h : Distinct s (.collection ns)) (hs : identity ∈ s.identity?) (hfs : .object fs ∈ ns)
    (hgs : .object gs ∈ ns) (hkey : identityKey identity fs = identityKey identity gs) :
    fs = gs := by
  cases h with
  | collection _ _ identities =>
    exact List.inj_on_of_nodup_map (identities identity hs)
      (List.mem_filterMap.mpr ⟨_, hfs, rfl⟩) (List.mem_filterMap.mpr ⟨_, hgs, rfl⟩) hkey
  | leaf | free => simp [FieldShape.identity?] at hs

/-! ### Values that are read alike -/

/-- If the first value is read as a node with distinct members, the second one is read wherever it
stands, and as a node that agrees. -/
def Follows (family : Family) (s : FieldShape) (v w : Json) : Prop :=
  ∀ path n, readField family path v s = .ok n → Distinct s n →
    ∀ path', ∃ m, readField family path' w s = .ok m ∧ Agree s n m

/-- A collection is read item by item, each of them as what is declared for it. -/
theorem readField_collection (hs : s.element? = some element) :
    readField family path v s = (do
      return collection
        (← ofItems (fun w p => readField family p w element) path 0
          (← arrayItems family v path))) := by
  cases s with
  | leaves kind =>
    obtain rfl := Option.some.inj hs
    simp only [readField]
  | objects typeName fields identity =>
    obtain rfl := Option.some.inj hs
    simp only [readField]
  | _ => simp [FieldShape.element?] at hs

/-- What success of reading a collection means. -/
theorem readField_collection_eq_ok (hs : s.element? = some element) :
    readField family path v s = .ok n ↔ ∃ vs ns, v = .arr vs
      ∧ ofItems (fun w p => readField family p w element) path 0 vs = .ok ns
      ∧ n = collection ns := by
  rw [readField_collection hs, Except.bind_eq_ok]
  constructor
  · rintro ⟨vs, hvs, h⟩
    obtain ⟨ns, hns, h⟩ := Except.bind_eq_ok.mp h
    exact ⟨vs, ns, arrayItems_eq_ok.mp hvs, hns, (Except.ok.inj h).symm⟩
  · rintro ⟨vs, ns, rfl, hns, rfl⟩
    exact ⟨vs, rfl, Except.bind_eq_ok.mpr ⟨ns, hns, rfl⟩⟩

/-- Arrays are read alike if their items are paired with items that are read alike. -/
theorem Follows.collection {vs ws : List Json} (pairs : List (Json × Json))
    (hs : s.element? = some element) (left : ∀ v, v ∈ pairs.map Prod.fst ↔ v ∈ vs ∧ v ≠ .null)
    (right : ∀ w, w ∈ pairs.map Prod.snd ↔ w ∈ ws ∧ w ≠ .null)
    (hpairs : ∀ p ∈ pairs, Follows family element p.1 p.2) :
    Follows family s (.arr vs) (.arr ws) := by
  intro path n hn hdistinct path'
  obtain ⟨_, ns, hvs, hns, rfl⟩ := (readField_collection_eq_ok hs).mp hn
  obtain rfl := Json.arr.inj hvs
  -- the items of a pair are both read, and agree
  have hpair : ∀ p ∈ pairs, ∃ n ∈ ns, ∀ path, ∃ m, readField family path p.2 element = .ok m
      ∧ Agree element n m := by
    intro p hp
    obtain ⟨hv, hnull⟩ := (left p.1).mp (List.mem_map_of_mem hp)
    obtain ⟨n, hn, base, hread⟩ := exists_member_of_ofItems hns p.1 hv hnull
    exact ⟨n, hn, hpairs p hp base n hread (hdistinct.of_mem hs hn)⟩
  obtain ⟨ms, hms⟩ : ∃ ms, ofItems (fun w p => readField family p w element) path' 0 ws
      = .ok ms := by
    refine exists_ofItems fun w hw hnull base => ?_
    obtain ⟨p, hp, rfl⟩ := List.mem_map.mp ((right w).mpr ⟨hw, hnull⟩)
    obtain ⟨n, -, hread⟩ := hpair p hp
    obtain ⟨m, hm, -⟩ := hread base
    exact ⟨m, hm⟩
  have hright : ∀ m ∈ ms, ∃ n ∈ ns, Agree element n m := by
    intro m hm
    obtain ⟨w, hw, hnull, base, hread⟩ := exists_item_of_ofItems hms m hm
    obtain ⟨p, hp, rfl⟩ := List.mem_map.mp ((right w).mpr ⟨hw, hnull⟩)
    obtain ⟨n, hn, hall⟩ := hpair p hp
    obtain ⟨m', hm', hagree⟩ := hall base
    obtain rfl := Except.ok.inj (hread.symm.trans hm')
    exact ⟨n, hn, hagree⟩
  have hleft : ∀ n ∈ ns, ∃ m ∈ ms, Agree element n m := by
    intro n hn
    obtain ⟨v, hv, hnull, base, hread⟩ := exists_item_of_ofItems hns n hn
    obtain ⟨p, hp, rfl⟩ := List.mem_map.mp ((left v).mpr ⟨hv, hnull⟩)
    obtain ⟨hw, hnull'⟩ := (right p.2).mp (List.mem_map_of_mem hp)
    obtain ⟨m, hm, base', hread'⟩ := exists_member_of_ofItems hms p.2 hw hnull'
    obtain ⟨m', hm', hagree⟩ := hpairs p hp base n hread (hdistinct.of_mem hs hn) base'
    obtain rfl := Except.ok.inj (hread'.symm.trans hm')
    exact ⟨m, hm, hagree⟩
  refine ⟨.collection ms, (readField_collection_eq_ok hs).mpr ⟨ws, ms, rfl, hms, rfl⟩,
    .of_members hs hleft hright fun identity hidentity fs gs hfs hgs hkey => ?_⟩
  -- a member of the second side agrees with one of the first, which is the only one of its identity
  obtain ⟨n, hn, hagree⟩ := hright _ hgs
  obtain ⟨typeName, fields, rfl⟩ := FieldShape.exists_object_of_identity hs hidentity
  obtain ⟨fs', gs', rfl, hgs', -⟩ := hagree.exists_objects
  obtain rfl := Node.object.inj hgs'
  have hsame := hkey.trans (hagree.identityKey_eq identity).symm
  obtain rfl := hdistinct.eq_of_identityKey_eq hidentity hfs hn hsame
  exact hagree

/-- What success of reading an object means. -/
theorem readField_object_eq_ok {typeName : String} {fields : List (String × FieldShape)} :
    readField family path v (.object typeName fields) = .ok n ↔ ∃ ms fs, v = .obj ms
      ∧ readFields family path ms [] fields = .ok fs ∧ n = object fs := by
  rw [readField, Except.bind_eq_ok]
  constructor
  · rintro ⟨ms, hms, h⟩
    obtain ⟨fs, hfs, h⟩ := Except.bind_eq_ok.mp h
    exact ⟨ms, fs, objectMembers_eq_ok.mp hms, hfs, (Except.ok.inj h).symm⟩
  · rintro ⟨ms, fs, rfl, hfs, rfl⟩
    exact ⟨ms, rfl, Except.bind_eq_ok.mpr ⟨fs, hfs, rfl⟩⟩

/-- Objects are read alike if what they have in their declared fields is. -/
theorem follows_readFields {typeName : String} {fields : List (String × FieldShape)}
    {ms ns : Table Json} {fs : Table Node} (hnames : (fields.map Prod.fst).Nodup)
    (hkeys : ms.keys = ns.keys)
    (hfields : ∀ name s v w, (name, s) ∈ fields → ms.get? name = some v → ns.get? name = some w →
      (v = .null ↔ w = .null) ∧ Follows family s v w)
    (hread : readFields family path ms [] fields = .ok fs)
    (hdistinct : Distinct (.object typeName fields) (.object fs)) (path' : String) :
    ∃ gs, readFields family path' ns [] fields = .ok gs
      ∧ Agree (.object typeName fields) (.object fs) (.object gs) := by
  obtain ⟨hasc, habsent, hpresent⟩ := readFields_spec hnames hread List.Pairwise.nil
  -- what the second object holds in a field follows what the first one holds there
  have hpair : ∀ name s w, (name, s) ∈ fields → Holds ns name w → ∃ n, fs.get? name = some n
      ∧ ∀ path, ∃ m, readField family path w s = .ok m ∧ Agree s n m := by
    intro name s w hs ⟨hw, hnull⟩
    have hsome := Table.isSome_eq_of_keys_eq hkeys name
    rw [hw, Option.isSome_some, Option.isSome_iff_exists] at hsome
    obtain ⟨v, hv⟩ := hsome
    obtain ⟨hiff, hfollows⟩ := hfields name s v w hs hv hw
    obtain ⟨n, hn, hget⟩ := hpresent name s v hs ⟨hv, fun h => hnull (hiff.mp h)⟩
    exact ⟨n, hget, hfollows _ n hn (hdistinct.field hs hget)⟩
  obtain ⟨gs, hgs⟩ : ∃ gs, readFields family path' ns [] fields = .ok gs := by
    refine exists_readFields (fun name s w hs hw => ?_) []
    obtain ⟨n, -, hall⟩ := hpair name s w hs hw
    obtain ⟨m, hm, -⟩ := hall (Path.child path' name)
    exact ⟨m, hm⟩
  obtain ⟨hasc', habsent', hpresent'⟩ := readFields_spec hnames hgs List.Pairwise.nil
  -- a field is either in neither of the objects that were read, or in both, and agrees
  have hboth : ∀ name, (fs.get? name = none ∧ gs.get? name = none)
      ∨ ∃ n m, fs.get? name = some n ∧ gs.get? name = some m ∧ name ∈ fields.map Prod.fst
        ∧ ∀ s, (name, s) ∈ fields → Agree s n m := by
    intro name
    by_cases hheld : ∃ s w, (name, s) ∈ fields ∧ Holds ns name w
    · obtain ⟨s, w, hs, hw⟩ := hheld
      obtain ⟨n, hn, hall⟩ := hpair name s w hs hw
      obtain ⟨m, hm, hget⟩ := hpresent' name s w hs hw
      obtain ⟨m', hm', hagree⟩ := hall (Path.child path' name)
      obtain rfl := Except.ok.inj (hm.symm.trans hm')
      refine Or.inr ⟨n, m, hn, hget, List.mem_map_of_mem hs, fun s' hs' => ?_⟩
      obtain rfl := List.eq_of_nodup_keys hnames hs' hs
      exact hagree
    · refine Or.inl ⟨?_, ?_⟩
      · rw [habsent name, Table.get?_nil]
        intro s v hs hv
        have hsome := Table.isSome_eq_of_keys_eq hkeys name
        rw [hv.1, Option.isSome_some, eq_comm, Option.isSome_iff_exists] at hsome
        obtain ⟨w, hw⟩ := hsome
        have hiff := (hfields name s v w hs hv.1 hw).1
        exact hheld ⟨s, w, hs, hw, fun h => hv.2 (hiff.mpr h)⟩
      · rw [habsent' name fun s w hs hw => hheld ⟨s, w, hs, hw⟩, Table.get?_nil]
  refine ⟨gs, hgs, .object hasc (Table.keys_eq_of_isSome hasc hasc' fun name => ?_)
    (fun name hname => ?_) fun name s n m hs hn hm => ?_⟩
  · rcases hboth name with ⟨hn, hm⟩ | ⟨n, m, hn, hm, -⟩ <;> simp [hn, hm]
  · rcases hboth name with ⟨hn, -⟩ | ⟨-, -, -, -, hdeclared, -⟩
    · rw [← Table.get?_isSome_iff_mem, hn] at hname
      exact absurd hname (by decide)
    · exact hdeclared
  · rcases hboth name with ⟨hn', -⟩ | ⟨n', m', hn', hm', -, hagree⟩
    · rw [hn] at hn'
      exact absurd hn' (by simp)
    · obtain rfl := Option.some.inj (hn.symm.trans hn')
      obtain rfl := Option.some.inj (hm.symm.trans hm')
      exact hagree s hs

theorem Follows.object {typeName : String} {fields : List (String × FieldShape)}
    {ms ns : Table Json} (hnames : (fields.map Prod.fst).Nodup) (hkeys : ms.keys = ns.keys)
    (hfields : ∀ name s v w, (name, s) ∈ fields → ms.get? name = some v → ns.get? name = some w →
      (v = .null ↔ w = .null) ∧ Follows family s v w) :
    Follows family (.object typeName fields) (.obj ms) (.obj ns) := by
  intro path n hn hdistinct path'
  obtain ⟨_, fs, hms, hfs, rfl⟩ := readField_object_eq_ok.mp hn
  obtain rfl := Json.obj.inj hms
  obtain ⟨gs, hgs, hagree⟩ := follows_readFields hnames hkeys hfields hfs hdistinct path'
  exact ⟨.object gs, readField_object_eq_ok.mpr ⟨ns, gs, rfl, hgs, rfl⟩, hagree⟩

/-- A leaf is read alike wherever it stands. -/
theorem follows_leaf {kind : Leaf} : Follows family (.leaf kind) v v := by
  intro path n hn _ path'
  rw [readField, ofLeaf] at hn
  split at hn
  · next k hk =>
    obtain rfl := Except.ok.inj hn
    refine ⟨.leaf v k, ?_, .leaf⟩
    rw [readField, ofLeaf, hk]
  · exact absurd hn (by simp)

/-- An array whose items are read alike wherever they stand is read so too. -/
theorem Follows.array_self {vs : List Json} (hs : s.element? = some element)
    (h : ∀ v ∈ vs, Follows family element v v) : Follows family s (.arr vs) (.arr vs) := by
  refine .collection (Rearranged.diagonal vs) hs (Rearranged.mem_map_diagonal fun _ => rfl)
    (Rearranged.mem_map_diagonal fun _ => rfl) fun p hp => ?_
  obtain ⟨v, hv, rfl⟩ := List.mem_map.mp hp
  exact h v (List.mem_of_mem_filter hv)

/-- A value is read alike wherever it stands. -/
theorem follows_self (hs : s.everyObject fun names => decide names.Nodup) :
    ∀ {v : Json}, v.Canonical → Follows family s v v := by
  have hobject : ∀ typeName (fields : List (String × FieldShape)),
      (∀ f ∈ fields, (f.2.everyObject fun names => decide names.Nodup) →
        ∀ {v : Json}, v.Canonical → Follows family f.2 v v) →
      (FieldShape.object typeName fields).everyObject (fun names => decide names.Nodup) →
        ∀ {v : Json}, v.Canonical → Follows family (.object typeName fields) v v := by
    intro typeName fields ih hs v hv path n hn
    obtain ⟨hnames, hfields⟩ := FieldShape.everyObject_object.mp hs
    obtain ⟨ms, -, rfl, -⟩ := readField_object_eq_ok.mp hn
    refine Follows.object (of_decide_eq_true hnames) rfl ?_ path n hn
    intro name s v w hs hv' hw
    obtain rfl := Option.some.inj (hv'.symm.trans hw)
    exact ⟨Iff.rfl, ih _ hs (hfields _ hs) (Json.hereditary_canonical.member hv hv')⟩
  induction s using FieldShape.fieldInduction with
  | leaf kind => exact fun {_} _ => follows_leaf
  | object typeName fields ih => exact fun {_} => hobject typeName fields ih hs
  | leaves kind =>
    intro v _ path n hn
    obtain ⟨vs, -, rfl, -⟩ := (readField_collection_eq_ok rfl).mp hn
    exact Follows.array_self rfl (fun w _ => follows_leaf) path n hn
  | objects typeName fields identity ih =>
    intro v hv path n hn
    rw [FieldShape.everyObject_objects] at hs
    obtain ⟨vs, -, rfl, -⟩ := (readField_collection_eq_ok rfl).mp hn
    exact Follows.array_self rfl (fun w hw => hobject typeName fields ih hs
      (Json.hereditary_canonical.item hv hw)) path n hn
  | free =>
    intro v hv path n hn _ path'
    rw [readField] at hn ⊢
    obtain ⟨ms, hms, hn⟩ := Except.bind_eq_ok.mp hn
    obtain rfl := Except.ok.inj hn
    obtain rfl := objectMembers_eq_ok.mp hms
    exact ⟨_, rfl, .free hv⟩

end Node

/-- **Rearranged values are read as nodes that agree.** -/
theorem Rearranged.follows {family : Family} {s : FieldShape} {v w : Json}
    (h : Rearranged s v w) (hs : s.everyObject fun names => decide names.Nodup)
    (hv : v.Canonical) : Node.Follows family s v w := by
  induction h with
  | refl => exact Node.follows_self hs hv
  | object keys fits ih =>
    obtain ⟨hnames, hfields⟩ := FieldShape.everyObject_object.mp hs
    refine .object (of_decide_eq_true hnames) keys fun name s v w hs hv' hw => ?_
    exact ⟨(fits name s v w hs hv' hw).null_iff, ih name s v w hs hv' hw (hfields _ hs)
      (Json.hereditary_canonical.member hv hv')⟩
  | collection pairs declared left right _ ih =>
    refine .collection pairs declared left right fun p hp => ?_
    have hmem := (left p.1).mp (List.mem_map_of_mem hp)
    exact ih p hp (FieldShape.everyObject_element hs declared)
      (Json.hereditary_canonical.item hv hmem.1)

/-- Rearranged objects have the same keys. -/
theorem Rearranged.keys_eq {s : FieldShape} {ms ns : Table Json}
    (h : Rearranged s (.obj ms) (.obj ns)) : ms.keys = ns.keys := by
  cases h with
  | refl => rfl
  | object keys => exact keys

/-! ### Missing objects -/

namespace Node

variable {shape : Shape} {fs gs : Table Node} {names : List String}

theorem Agree.nil {typeName : String} {fields : List (String × FieldShape)} :
    Agree (.object typeName fields) (.object []) (.object []) :=
  .object List.Pairwise.nil rfl (fun _ h => absurd h List.not_mem_nil) fun _ _ _ _ _ h => by
    simp at h

/-- Putting nodes that agree under one name leaves objects agreeing. -/
theorem Agree.insert {typeName name : String} {fields : List (String × FieldShape)}
    {s : FieldShape} {n m : Node} (h : Agree (.object typeName fields) (.object fs) (.object gs))
    (hnames : (fields.map Prod.fst).Nodup) (hs : (name, s) ∈ fields) (hn : Agree s n m) :
    Agree (.object typeName fields) (.object (fs.insert name n)) (.object (gs.insert name m)) := by
  cases h with
  | object ascending keys declared fits =>
    refine .object (Table.ascending_insert ascending name n) (Table.keys_insert_congr keys name n m)
      (fun k hk => ?_) fun k s' n' m' hs' hn' hm' => ?_
    · obtain ⟨e, he, rfl⟩ := List.mem_map.mp hk
      rcases Table.mem_insert he with rfl | he
      · exact List.mem_map_of_mem hs
      · exact declared _ (List.mem_map_of_mem he)
    · rw [Table.get?_insert] at hn' hm'
      split at hn'
      · next heq =>
        subst heq
        rw [if_pos rfl] at hm'
        obtain rfl := Option.some.inj hn'
        obtain rfl := Option.some.inj hm'
        obtain rfl := List.eq_of_nodup_keys hnames hs' hs
        exact hn
      · next hne =>
        rw [if_neg hne] at hm'
        exact fits k s' n' m' hs' hn' hm'

/-- Creating the objects on a path of the shape leaves objects agreeing. -/
theorem Agree.openObjects : ∀ {shape : Shape} {fs gs : Table Node}, shape.hasDistinctNames →
    (shape.objectBelow? names).isSome →
      Agree (.object shape.typeName shape.fields) (.object fs) (.object gs) →
        Agree (.object shape.typeName shape.fields) (.object (Node.openObjects fs names).1)
          (.object (Node.openObjects gs names).1) := by
  induction names with
  | nil => exact fun _ _ h => h
  | cons name names ih =>
    intro shape fs gs hs hbelow h
    obtain ⟨hnames, hfields⟩ := FieldShape.everyObject_object.mp hs
    have hnodup := of_decide_eq_true hnames
    obtain ⟨child, hmem, hbelow'⟩ := exists_child_of_objectBelow? hbelow
    have hinner := hfields _ hmem
    have hboth := h
    cases hboth with
    | object _ keys _ fits =>
      have hsome := Table.isSome_eq_of_keys_eq keys name
      cases hn : fs.get? name with
      | none =>
        cases hm : gs.get? name with
        | some m => simp [hn, hm] at hsome
        | none =>
          simp only [Node.openObjects, hn, hm]
          exact h.insert hnodup hmem (ih hinner hbelow' .nil)
      | some n =>
        cases hm : gs.get? name with
        | none => simp [hn, hm] at hsome
        | some m =>
          have hagree := fits name _ n m hmem hn hm
          obtain ⟨inner, inner', rfl, rfl, -⟩ := hagree.exists_objects
          simp only [Node.openObjects, hn, hm]
          exact h.insert hnodup hmem (ih hinner hbelow' hagree)

/-- If members are told apart once objects on a path of the shape have been created, they were so
before. -/
theorem Distinct.of_openObjects : ∀ {shape : Shape} {fs : Table Node}, shape.hasDistinctNames →
    (shape.objectBelow? names).isSome →
      Distinct (.object shape.typeName shape.fields) (.object (Node.openObjects fs names).1) →
        Distinct (.object shape.typeName shape.fields) (.object fs) := by
  induction names with
  | nil => exact fun _ _ h => h
  | cons name names ih =>
    intro shape fs hs hbelow h
    obtain ⟨hnames, hfields⟩ := FieldShape.everyObject_object.mp hs
    have hnodup := of_decide_eq_true hnames
    obtain ⟨child, hmem, hbelow'⟩ := exists_child_of_objectBelow? hbelow
    refine .object fun k s n hsk hn => ?_
    unfold Node.openObjects at h
    split at h
    · -- the object was missing, so its name is none of those that the fields had
      next hget =>
      have hne : name ≠ k := by
        rintro rfl
        rw [hn] at hget
        exact absurd hget (by simp)
      exact h.field hsk (by rw [Table.get?_insert, if_neg hne, hn])
    · next inner hget =>
      by_cases heq : name = k
      · subst heq
        obtain rfl := Option.some.inj (hn.symm.trans hget)
        obtain rfl := List.eq_of_nodup_keys hnodup hsk hmem
        have hbelowDistinct := h.field hsk (by rw [Table.get?_insert, if_pos rfl])
        exact ih (hfields _ hmem) hbelow' hbelowDistinct
      · exact h.field hsk (by rw [Table.get?_insert, if_neg heq, hn])
    · exact h.field hsk hn

end Node

/-! ### Entities -/

namespace Entity

variable {rules : Rules}

theorem agree_openDefault (hs : rules.shape.hasDistinctNames) {root root' : Table Node}
    (path : String) (h : Node.Agree rules.root (.object root) (.object root')) :
    Node.Agree rules.root (.object (openDefault rules.shape root path))
      (.object (openDefault rules.shape root' path)) := by
  unfold openDefault
  split
  · next hpath => exact Node.Agree.openObjects hs hpath h
  · exact h

theorem distinct_of_openDefault (hs : rules.shape.hasDistinctNames) {root : Table Node}
    {path : String}
    (h : Node.Distinct rules.root (.object (openDefault rules.shape root path))) :
    Node.Distinct rules.root (.object root) := by
  unfold openDefault at h
  split at h
  · next hpath => exact Node.Distinct.of_openObjects hs hpath h
  · exact h

/-- Creating default objects leaves the roots of entities agreeing. -/
theorem agree_defaults (hs : rules.shape.hasDistinctNames) {paths : List String} :
    ∀ {root root' : Table Node}, Node.Agree rules.root (.object root) (.object root') →
      Node.Agree rules.root (.object (paths.foldl (openDefault rules.shape) root))
        (.object (paths.foldl (openDefault rules.shape) root')) := by
  induction paths with
  | nil => exact fun h => h
  | cons path paths ih => exact fun h => ih (agree_openDefault hs path h)

theorem distinct_of_defaults (hs : rules.shape.hasDistinctNames) {paths : List String} :
    ∀ {root : Table Node},
      Node.Distinct rules.root (.object (paths.foldl (openDefault rules.shape) root)) →
        Node.Distinct rules.root (.object root) := by
  induction paths with
  | nil => exact fun h => h
  | cons path paths ih => exact fun h => distinct_of_openDefault hs (ih h)

/-- Whether a snapshot is of the family depends on its keys. -/
theorem checkFamily_congr {ms ns : Table Json} (h : ms.keys = ns.keys) :
    checkFamily rules ms = checkFamily rules ns := by
  have hempty : ms.isEmpty = ns.isEmpty := by
    have hmap := congrArg List.isEmpty h
    rwa [Table.keys, Table.keys, List.isEmpty_map, List.isEmpty_map] at hmap
  unfold checkFamily
  rw [h, hempty]

/-- **Rearranged objects are read as entities that agree**, if they are so in the layout of the
shape. -/
theorem agree_of_rearranged (hs : rules.shape.hasDistinctNames) {ms ns out out' : Table Json}
    {e : Entity} (hout : rules.reshaped ms = .ok out) (hout' : rules.reshaped ns = .ok out')
    (hcanonical : (Json.obj out).Canonical) (h : Rearranged rules.root (.obj out) (.obj out'))
    (he : ofSnapshot rules (some (.obj ms)) = .ok e)
    (hdistinct : Node.Distinct rules.root (.object e.root)) :
    ∃ e', ofSnapshot rules (some (.obj ns)) = .ok e'
      ∧ Node.Agree rules.root (.object e.root) (.object e'.root) := by
  obtain ⟨root, hroot, rfl⟩ := ofSnapshot_eq_ok.mp he
  have hfields : checkFamily rules out = .ok ()
      ∧ Node.readFields rules.family "" out [] rules.shape.fields = .ok root := by
    rcases readRoot_eq_ok.mp hroot with ⟨habsent, -⟩ | ⟨_, _, heq, hreshaped, hread⟩
    · simp at habsent
    · obtain rfl := Json.obj.inj (Option.some.inj heq)
      obtain rfl := Except.ok.inj (hout.symm.trans hreshaped)
      exact hread
  obtain ⟨hcheck, hfields⟩ := hfields
  have hfollows := h.follows hs hcanonical "" _
    (Node.readField_object_eq_ok.mpr ⟨out, root, rfl, hfields, rfl⟩)
    (distinct_of_defaults hs hdistinct)
  obtain ⟨n, hn, hagree⟩ := hfollows ""
  obtain ⟨_, root', hobj, hfields', rfl⟩ := Node.readField_object_eq_ok.mp hn
  obtain rfl := Json.obj.inj hobj
  rw [checkFamily_congr h.keys_eq] at hcheck
  have hroot' := readRoot_eq_ok.mpr (Or.inr ⟨ns, out', rfl, hout', hcheck, hfields'⟩)
  exact ⟨_, ofSnapshot_eq_ok.mpr ⟨root', hroot', rfl⟩, agree_defaults hs hagree⟩

end Entity

end SnapshotDiff
