import SnapshotDiff.Proofs.Entity.Acceptance
import SnapshotDiff.Proofs.Entity.Rearranged

/-!
# Entities that are rendered and read again

An entity is a normal form.  What reading drops is gone from its value: members that are not
declared, `null`, and items that are `null`.  What reading adds, the default objects, is there.  So
the value of an entity is read as the entity itself.

## Main definitions

* `Node.Settled` — the node holds nothing that reading would drop or change.
* `Node.Opened` — there is an object at every step of a path.

## Main results

* `Node.settled_readField` — what was read is settled.
* `Node.Settled.readField_json` — the value of a settled node is read as the node.
* `Entity.ofSnapshot_json` — **the value of an entity is read as the entity.**
-/

namespace SnapshotDiff

open FieldShape

namespace Node

variable {family : Family} {s element : FieldShape} {n : Node} {path typeName : String}
  {fields : List (String × FieldShape)} {fs : Table Node}

/-- Reading the value of the node drops nothing: leaves carry the key of a value that is not `null`,
and the fields of objects are declared. -/
inductive Settled : FieldShape → Node → Prop
  | leaf {kind : Leaf} {raw : Json} {k : String} (key : kind.key raw = .ok k)
    (present : raw ≠ .null) : Settled (.leaf kind) (leaf raw k)
  | object {typeName : String} {fields : List (String × FieldShape)} {fs : Table Node}
    (ascending : fs.Ascending) (declared : ∀ name ∈ fs.keys, name ∈ fields.map Prod.fst)
    (settled : ∀ name s n, (name, s) ∈ fields → fs.get? name = some n → Settled s n) :
    Settled (.object typeName fields) (object fs)
  | collection {s element : FieldShape} {ns : List Node} (declared : s.element? = some element)
    (members : ∀ n ∈ ns, Settled element n) : Settled s (collection ns)
  | free {ms : Table Json} : Settled .free (free ms)

namespace Settled

theorem ascending (h : Settled (.object typeName fields) (.object fs)) : fs.Ascending := by
  cases h with
  | object ascending _ _ => exact ascending

theorem declared (h : Settled (.object typeName fields) (.object fs)) :
    ∀ name ∈ fs.keys, name ∈ fields.map Prod.fst := by
  cases h with
  | object _ declared _ => exact declared

theorem field (h : Settled (.object typeName fields) (.object fs)) {name : String}
    (hs : (name, s) ∈ fields) (hn : fs.get? name = some n) : Settled s n := by
  cases h with
  | object _ _ settled => exact settled name s n hs hn

theorem exists_object (h : Settled (.object typeName fields) n) : ∃ fs, n = Node.object fs := by
  cases h with
  | object _ _ _ => exact ⟨_, rfl⟩
  | collection declared _ => simp [element?] at declared

theorem json_ne_null (h : Settled s n) : n.json ≠ .null := by
  cases h with
  | leaf _ present => exact present
  | object | collection | free => simp [json]

theorem nil : Settled (.object typeName fields) (.object []) :=
  .object List.Pairwise.nil (fun _ h => absurd h List.not_mem_nil) fun _ _ _ _ hn => by simp at hn

/-- Putting what is settled under a declared name leaves an object settled. -/
theorem insert (h : Settled (.object typeName fields) (.object fs)) {name : String}
    (hnames : (fields.map Prod.fst).Nodup) (hs : (name, s) ∈ fields) (hn : Settled s n) :
    Settled (.object typeName fields) (.object (fs.insert name n)) := by
  refine .object (Table.ascending_insert h.ascending name n) (fun k hk => ?_) ?_
  · obtain ⟨e, he, rfl⟩ := List.mem_map.mp hk
    rcases Table.mem_insert he with rfl | he
    · exact List.mem_map_of_mem hs
    · exact h.declared _ (List.mem_map_of_mem he)
  · intro k s' n' hs' hn'
    rw [Table.get?_insert] at hn'
    split at hn'
    · next heq =>
      subst heq
      obtain rfl := Option.some.inj hn'
      obtain rfl := List.eq_of_nodup_keys hnames hs' hs
      exact hn
    · exact h.field hs' hn'

end Settled

/-! ### What was read is settled -/

theorem settled_readFields {members : Table Json} (hnames : (fields.map Prod.fst).Nodup)
    (hread : ∀ f ∈ fields, ∀ {p v n}, v ≠ Json.null → readField family p v f.2 = .ok n →
      Settled f.2 n)
    (h : readFields family path members [] fields = .ok fs) :
    Settled (.object typeName fields) (.object fs) := by
  obtain ⟨hasc, habsent, hpresent⟩ := readFields_spec hnames h List.Pairwise.nil
  -- what the object has under a name was read from what the members hold there
  have hheld : ∀ name n, fs.get? name = some n → ∃ s v, (name, s) ∈ fields
      ∧ Holds members name v ∧ readField family (Path.child path name) v s = .ok n := by
    intro name n hn
    by_cases hheld : ∃ s v, (name, s) ∈ fields ∧ Holds members name v
    · obtain ⟨s, v, hs, hv⟩ := hheld
      obtain ⟨m, hm, hget⟩ := hpresent name s v hs hv
      obtain rfl := Option.some.inj (hget.symm.trans hn)
      exact ⟨s, v, hs, hv, hm⟩
    · rw [habsent name fun s v hs hv => hheld ⟨s, v, hs, hv⟩] at hn
      simp at hn
  refine .object hasc (fun name hname => ?_) fun name s n hs hn => ?_
  · rw [← Table.get?_isSome_iff_mem] at hname
    obtain ⟨n, hn⟩ := Option.isSome_iff_exists.mp hname
    obtain ⟨s, -, hs, -, -⟩ := hheld name n hn
    exact List.mem_map_of_mem hs
  · obtain ⟨s', v, hs', hv, hn'⟩ := hheld name n hn
    obtain rfl := List.eq_of_nodup_keys hnames hs' hs
    exact hread _ hs' hv.2 hn'

/-- **What was read from a value that is not `null` is settled.** -/
theorem settled_readField (hs : s.everyObject fun names => decide names.Nodup) :
    ∀ {path v n}, v ≠ Json.null → readField family path v s = .ok n → Settled s n := by
  have hleaf : ∀ {kind : Leaf} {path v n}, v ≠ Json.null → ofLeaf family kind v path = .ok n →
      Settled (.leaf kind) n := by
    intro kind path v n hv h
    unfold ofLeaf at h
    split at h
    · next k hk =>
      obtain rfl := Except.ok.inj h
      exact .leaf hk hv
    · simp at h
  -- the members of collections are read in the way fields are
  have hcollection : ∀ {s element : FieldShape}, s.element? = some element →
      (∀ {path v n}, v ≠ Json.null → readField family path v element = .ok n → Settled element n) →
        ∀ {path v n}, readField family path v s = .ok n → Settled s n := by
    intro s element hs ih path v n h
    obtain ⟨vs, ns, rfl, hns, rfl⟩ := (readField_collection_eq_ok hs).mp h
    refine .collection hs fun n hn => ?_
    obtain ⟨w, -, hw, p, hread⟩ := exists_item_of_ofItems hns n hn
    exact ih hw hread
  have hobject : ∀ typeName (fields : List (String × FieldShape)),
      (∀ f ∈ fields, (f.2.everyObject fun names => decide names.Nodup) → ∀ {path v n},
        v ≠ Json.null → readField family path v f.2 = .ok n → Settled f.2 n) →
      (FieldShape.object typeName fields).everyObject (fun names => decide names.Nodup) →
        ∀ {path v n}, readField family path v (.object typeName fields) = .ok n →
          Settled (.object typeName fields) n := by
    intro typeName fields ih hs path v n h
    obtain ⟨hnames, hfields⟩ := everyObject_object.mp hs
    obtain ⟨ms, fs, rfl, hfs, rfl⟩ := readField_object_eq_ok.mp h
    exact settled_readFields (of_decide_eq_true hnames)
      (fun f hf _ _ _ => ih f hf (hfields f hf)) hfs
  induction s using fieldInduction with
  | leaf kind =>
    intro path v n hv h
    rw [readField] at h
    exact hleaf hv h
  | object typeName fields ih =>
    intro path v n _ h
    exact hobject typeName fields ih hs h
  | leaves kind =>
    intro path v n _ h
    refine hcollection rfl (fun hv h => ?_) h
    rw [readField] at h
    exact hleaf hv h
  | objects typeName fields identity ih =>
    intro path v n _ h
    rw [everyObject_objects] at hs
    exact hcollection rfl (fun _ h => hobject typeName fields ih hs h) h
  | free =>
    intro path v n _ h
    rw [readField] at h
    obtain ⟨ms, -, h⟩ := Except.bind_eq_ok.mp h
    obtain rfl := Except.ok.inj h
    exact .free

/-! ### What is settled is read back -/

theorem get?_fieldValues (fs : Table Node) (name : String) :
    Table.get? (fieldValues fs) name = (fs.get? name).map json := by
  induction fs with
  | nil => rfl
  | cons f fs ih =>
    rw [fieldValues, Table.get?_cons, Table.get?_cons, ih]
    split <;> rfl

theorem keys_fieldValues (fs : Table Node) : Table.keys (fieldValues fs) = fs.keys := by
  rw [fieldValues_eq_map, Table.keys, List.map_map]
  rfl

theorem ofItems_map_json {read : Json → String → Except DiffError Node} {ns : List Node}
    (h : ∀ n ∈ ns, n.json ≠ .null ∧ ∀ p, read n.json p = .ok n) :
    ∀ i, ofItems read path i (ns.map json) = .ok ns := by
  induction ns with
  | nil => exact fun i => by rw [List.map_nil, ofItems]
  | cons n ns ih =>
    intro i
    obtain ⟨⟨hnull, hn⟩, hns⟩ := List.forall_mem_cons.mp h
    rw [List.map_cons]
    exact (ofItems_cons_eq_ok hnull).mpr ⟨n, ns, hn _, ih hns (i + 1), rfl⟩

theorem readFields_fieldValues (hnames : (fields.map Prod.fst).Nodup) (hasc : fs.Ascending)
    (hdeclared : ∀ name ∈ fs.keys, name ∈ fields.map Prod.fst)
    (h : ∀ name s n, (name, s) ∈ fields → fs.get? name = some n →
      n.json ≠ .null ∧ ∀ p, readField family p n.json s = .ok n) :
    readFields family path (fieldValues fs) [] fields = .ok fs := by
  -- what the value holds under a declared name is the value of the field, which is read back
  have hheld : ∀ name s v, (name, s) ∈ fields → Holds (fieldValues fs) name v →
      ∃ n, fs.get? name = some n ∧ readField family (Path.child path name) v s = .ok n := by
    intro name s v hs hv
    have hget := hv.1
    rw [get?_fieldValues, Option.map_eq_some_iff] at hget
    obtain ⟨n, hn, rfl⟩ := hget
    exact ⟨n, hn, (h name s n hs hn).2 _⟩
  obtain ⟨t, ht⟩ := exists_readFields (fun name s v hs hv =>
    (hheld name s v hs hv).imp fun _ hn => hn.2) []
  obtain ⟨htasc, habsent, hpresent⟩ := readFields_spec hnames ht List.Pairwise.nil
  have heq : t = fs := by
    refine Table.eq_of_get? htasc hasc fun name => ?_
    cases hn : fs.get? name with
    | none =>
      refine habsent name fun s v hs hv => ?_
      obtain ⟨n, hn', -⟩ := hheld name s v hs hv
      rw [hn] at hn'
      exact absurd hn' (by simp)
    | some n =>
      have hname := hdeclared name (Table.get?_isSome_iff_mem.mp (by rw [hn, Option.isSome_some]))
      obtain ⟨⟨_, s⟩, hs, rfl⟩ := List.mem_map.mp hname
      obtain ⟨hnull, hread⟩ := h _ s n hs hn
      have hv : Holds (fieldValues fs) _ n.json :=
        ⟨by rw [get?_fieldValues, hn, Option.map_some], hnull⟩
      obtain ⟨m, hm, hget⟩ := hpresent _ s n.json hs hv
      obtain rfl := Except.ok.inj (hm.symm.trans (hread _))
      exact hget
  exact heq ▸ ht

/-- **The value of a settled node is read as the node**, wherever it stands. -/
theorem Settled.readField_json (h : Settled s n)
    (hs : s.everyObject fun names => decide names.Nodup) :
    ∀ {path}, readField family path n.json s = .ok n := by
  induction h with
  | leaf key _ =>
    intro path
    rw [readField, json, ofLeaf, key]
  | object ascending declared settled ih =>
    intro path
    obtain ⟨hnames, hfields⟩ := everyObject_object.mp hs
    refine readField_object_eq_ok.mpr ⟨_, _, by rw [json], ?_, rfl⟩
    exact readFields_fieldValues (of_decide_eq_true hnames) ascending declared
      fun name s n hs hn => ⟨(settled name s n hs hn).json_ne_null,
        fun p => ih name s n hs hn (hfields _ hs)⟩
  | @collection s element ns declared members ih =>
    intro path
    refine (readField_collection_eq_ok declared).mpr ⟨_, ns, by rw [json], ?_, rfl⟩
    rw [memberValues_eq_map]
    exact ofItems_map_json (fun n hn => ⟨(members n hn).json_ne_null,
      fun p => ih n hn (everyObject_element hs declared)⟩) 0
  | free =>
    intro path
    rw [readField, json]
    rfl

/-! ### Objects on a path -/

/-- There is an object at every step of the path. -/
def Opened (fs : Table Node) : List String → Prop
  | [] => True
  | name :: names => ∃ inner, fs.get? name = some (.object inner) ∧ Opened inner names

/-- An object in which another one is open is not empty. -/
theorem Opened.ne_nil {fs : Table Node} {names : List String} (h : Opened fs names)
    (hne : names ≠ []) : fs ≠ [] := by
  rintro rfl
  cases names with
  | nil => exact hne rfl
  | cons name names =>
    obtain ⟨inner, hget, -⟩ := h
    simp at hget

/-- What is open stays open when the objects on another path are created. -/
theorem Opened.openObjects {names : List String} : ∀ {fs : Table Node} {others : List String},
    Opened fs names → Opened (Node.openObjects fs others).1 names := by
  induction names with
  | nil => exact fun _ => trivial
  | cons name names ih =>
    intro fs others h
    cases others with
    | nil => exact h
    | cons other others =>
      obtain ⟨inner, hinner, hopen⟩ := h
      by_cases heq : other = name
      · subst heq
        rw [Node.openObjects, hinner]
        exact ⟨_, by rw [Table.get?_insert, if_pos rfl], ih hopen⟩
      · have hother : ∀ m, (fs.insert other m).get? name = some (.object inner) := fun m => by
          rw [Table.get?_insert, if_neg heq, hinner]
        unfold Node.openObjects
        split
        · exact ⟨inner, hother _, hopen⟩
        · exact ⟨inner, hother _, hopen⟩
        · exact ⟨inner, hinner, hopen⟩

/-- Creating the objects on a path that leads through settled objects: the path is open, and what is
there is settled. -/
theorem Settled.openObjects {names : List String} : ∀ {shape : Shape} {fs : Table Node},
    shape.hasDistinctNames → (shape.objectBelow? names).isSome →
      Settled (.object shape.typeName shape.fields) (.object fs) →
        Opened (Node.openObjects fs names).1 names
          ∧ Settled (.object shape.typeName shape.fields)
            (.object (Node.openObjects fs names).1) := by
  induction names with
  | nil => exact fun _ _ h => ⟨trivial, h⟩
  | cons name names ih =>
    intro shape fs hs hbelow h
    obtain ⟨hnames, hfields⟩ := everyObject_object.mp hs
    have hnodup := of_decide_eq_true hnames
    obtain ⟨child, hmem, hbelow'⟩ := exists_child_of_objectBelow? hbelow
    -- the field is declared as an object, so the walk goes on below it
    have hstep : ∀ inner : Table Node,
        Settled (.object child.typeName child.fields) (.object inner) →
        Opened (fs.insert name (.object (Node.openObjects inner names).1)) (name :: names)
          ∧ Settled (.object shape.typeName shape.fields)
            (.object (fs.insert name (.object (Node.openObjects inner names).1))) := by
      intro inner hinner
      obtain ⟨hopen, hsettled⟩ := ih (hfields _ hmem) hbelow' hinner
      exact ⟨⟨_, by rw [Table.get?_insert, if_pos rfl], hopen⟩, h.insert hnodup hmem hsettled⟩
    cases hget : fs.get? name with
    | none =>
      rw [Node.openObjects, hget]
      exact hstep [] .nil
    | some n =>
      have hn := h.field hmem hget
      obtain ⟨inner, rfl⟩ := hn.exists_object
      rw [Node.openObjects, hget]
      exact hstep inner hn

/-- Where there is an object at every step of a path, none is created. -/
theorem Settled.openObjects_eq_self {names : List String} : ∀ {shape : Shape} {fs : Table Node},
    Settled (.object shape.typeName shape.fields) (.object fs) →
      (shape.objectBelow? names).isSome → Opened fs names → (Node.openObjects fs names).1 = fs := by
  induction names with
  | nil => exact fun _ _ _ => rfl
  | cons name names ih =>
    intro shape fs h hbelow hopen
    obtain ⟨inner, hinner, hopen⟩ := hopen
    obtain ⟨child, hmem, hbelow'⟩ := exists_child_of_objectBelow? hbelow
    have hself := ih (h.field hmem hinner) hbelow' hopen
    rw [Node.openObjects, hinner]
    dsimp only
    rw [hself, Table.insert_eq_self h.ascending hinner]

end Node

/-! ### Entities -/

namespace Entity

open Node (Settled Opened)

variable {rules : Rules} {root : Table Node}

/-- The default object at the path is there, if the shape has one. -/
def HasDefault (shape : Shape) (root : Table Node) (path : String) : Prop :=
  (shape.objectAt? path).isSome → Opened root (Path.segments path)

theorem settled_openDefault (hs : rules.shape.hasDistinctNames) (path : String)
    (h : Settled rules.root (.object root)) :
    HasDefault rules.shape (openDefault rules.shape root path) path
      ∧ Settled rules.root (.object (openDefault rules.shape root path)) := by
  unfold openDefault
  split
  · next hpath =>
    obtain ⟨hopen, hsettled⟩ := h.openObjects hs hpath
    exact ⟨fun _ => hopen, hsettled⟩
  · next hpath => exact ⟨fun h => absurd h hpath, h⟩

theorem HasDefault.openDefault {shape : Shape} {path : String} (h : HasDefault shape root path)
    (other : String) : HasDefault shape (openDefault shape root other) path := by
  intro hpath
  unfold Entity.openDefault
  split
  · exact (h hpath).openObjects
  · exact h hpath

/-- Once the default objects have been created one by one, they are all there. -/
theorem settled_defaults (paths : List String) (hs : rules.shape.hasDistinctNames) :
    ∀ {root : Table Node}, Settled rules.root (.object root) →
      (∀ path ∈ paths,
          HasDefault rules.shape (paths.foldl (openDefault rules.shape) root) path)
        ∧ Settled rules.root (.object (paths.foldl (openDefault rules.shape) root)) := by
  have hkeep : ∀ (paths : List String) {root : Table Node} {path : String},
      HasDefault rules.shape root path →
        HasDefault rules.shape (paths.foldl (openDefault rules.shape) root) path := by
    intro paths
    induction paths with
    | nil => exact fun h => h
    | cons other paths ih => exact fun h => ih (h.openDefault other)
  induction paths with
  | nil => exact fun h => ⟨by simp, h⟩
  | cons path paths ih =>
    intro root h
    obtain ⟨hopen, hsettled⟩ := settled_openDefault hs path h
    obtain ⟨hall, hroot⟩ := ih hsettled
    exact ⟨List.forall_mem_cons.mpr ⟨hkeep paths hopen, hall⟩, hroot⟩

/-- Where the default objects are there, none is created. -/
theorem foldl_openDefault_eq_self {paths : List String} (h : Settled rules.root (.object root))
    (hall : ∀ path ∈ paths, HasDefault rules.shape root path) :
    paths.foldl (openDefault rules.shape) root = root := by
  induction paths with
  | nil => rfl
  | cons path paths ih =>
    obtain ⟨hpath, hpaths⟩ := List.forall_mem_cons.mp hall
    have hself : openDefault rules.shape root path = root := by
      unfold openDefault
      split
      · next hshape => exact h.openObjects_eq_self hshape (hpath hshape)
      · rfl
    rw [List.foldl_cons, hself]
    exact ih hpaths

/-- The root that is read from a snapshot is settled. -/
theorem settled_readRoot (hs : rules.shape.hasDistinctNames) {snapshot : Option Json}
    (h : readRoot rules snapshot = .ok root) : Settled rules.root (.object root) := by
  rcases readRoot_eq_ok.mp h with ⟨-, rfl⟩ | ⟨ms, out, -, -, -, hread⟩
  · exact .nil
  · obtain ⟨hnames, hfields⟩ := everyObject_object.mp hs
    exact Node.settled_readFields (of_decide_eq_true hnames)
      (fun f hf _ _ _ => Node.settled_readField (hfields f hf)) hread

/-- The value of a settled root passes the check of the family, for all its members are declared. -/
theorem checkFamily_fieldValues (h : Settled rules.root (.object root)) :
    checkFamily rules (Node.fieldValues root) = .ok () := by
  have hdeclares : ∀ name ∈ Table.keys (Node.fieldValues root), rules.shape.declares name := by
    intro name hname
    rw [Node.keys_fieldValues] at hname
    exact List.lookup_isSome_iff_mem.mpr (h.declared name hname)
  refine Rules.checkFamily_eq_ok_iff.mpr ⟨?_, fun name hname => ?_⟩
  · cases hvalues : Node.fieldValues root with
    | nil => exact Or.inl rfl
    | cons m ms =>
      have hmem : m.1 ∈ Table.keys (m :: ms) := List.mem_cons_self
      exact Or.inr ⟨m.1, hmem, hdeclares m.1 (hvalues ▸ hmem)⟩
  · rw [Rules.isForeign, hdeclares name hname]
    rfl

/-- **The value of an entity is read as the entity.**  The rules take snapshots as they are, and the
names in each object of their shape are distinct; the snapshot may be any. -/
theorem ofSnapshot_json (hreshape : rules.reshape? = none) (hs : rules.shape.hasDistinctNames)
    {snapshot : Option Json} {e : Entity} (h : ofSnapshot rules snapshot = .ok e) :
    ofSnapshot rules (some e.json) = .ok e := by
  obtain ⟨root, hroot, rfl⟩ := ofSnapshot_eq_ok.mp h
  obtain ⟨hdefaults, hsettled⟩ := settled_defaults rules.defaultObjects hs
    (settled_readRoot hs hroot)
  generalize rules.defaultObjects.foldl (openDefault rules.shape) root = root' at *
  obtain ⟨hnames, hfields⟩ := everyObject_object.mp hs
  have hread : Node.readFields rules.family "" (Node.fieldValues root') [] rules.shape.fields
      = .ok root' :=
    Node.readFields_fieldValues (of_decide_eq_true hnames) hsettled.ascending hsettled.declared
      fun name s n hs hn => ⟨(hsettled.field hs hn).json_ne_null,
        fun p => (hsettled.field hs hn).readField_json (hfields _ hs)⟩
  refine ofSnapshot_eq_ok.mpr ⟨root', ?_, ?_⟩
  · rw [json, Node.json, Rules.readRoot_eq_bind hreshape, checkFamily_fieldValues hsettled]
    exact hread
  · rw [foldl_openDefault_eq_self hsettled hdefaults]

/-- The rules for parcels, where the address of the sender is a default object inside another. -/
def parcelRules : Rules where
  family := .item
  shape :=
    ⟨"Parcel", [("note", .leaf .any), ("labels", .leaves .string),
      ("sender", .object "Sender" [("address", .object "Address" [("city", .leaf .string)])]),
      ("lines", .objects "Line" [("amount", .leaf .integer)] none), ("extra", .free)]⟩
  defaultObjects := ["sender.address"]

/-- A parcel with a member that is not declared, with items that are `null`, and without sender. -/
def parcel : Json :=
  .obj [("extra", .obj [("gift", .null)]), ("labels", .arr [.str "b", .null, .str "a", .str "b"]),
    ("lines", .arr [.null, .obj [("amount", .int 1), ("unit", .str "kg")]]),
    ("note", .arr [.null]), ("weight", .int 3)]

theorem ofSnapshot_json_parcel : ∃ e, ofSnapshot parcelRules (some parcel) = .ok e
    ∧ e.json.text = "\x7b\"extra\":\x7b\"gift\":null\x7d,\"labels\":[\"b\",\"a\",\"b\"],"
      ++ "\"lines\":[\x7b\"amount\":1\x7d],\"note\":[null],"
      ++ "\"sender\":\x7b\"address\":\x7b\x7d\x7d\x7d"
    ∧ ofSnapshot parcelRules (some e.json) = .ok e := by
  have h : ofSnapshot parcelRules (some parcel) = .ok _ := rfl
  exact ⟨_, h, by decide +kernel, ofSnapshot_json rfl (by decide) h⟩

end Entity

end SnapshotDiff
