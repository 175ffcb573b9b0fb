import SnapshotDiff.Proofs.Node.Fits

/-!
# What reading yields

The entity of a snapshot fits the shape of its rules, whatever the snapshot: leaves carry their
keys, objects have declared fields only, and what the free objects hold was in the snapshot.

## Main definitions

* `Node.Holds` — what members have under a name, unless it is `null`.
* `Rules.root` — what is declared for the root of a snapshot.
* `Rules.Preserves` — bringing a snapshot into the layout of the shape preserves a property.
* `Entity.Fits` — an entity fits the shape of its rules.

## Main results

* `Node.readFields_spec` — every field that the members hold is read, and nothing else.
* `Node.fits_readField` — a value that was read fits the declaration it was read against.
* `Entity.fits_ofSnapshot` — the root of an entity fits the shape of its rules.
-/

namespace Except

/-- A computation in two steps succeeds if both steps do. -/
theorem bind_eq_ok {ε α β : Type} {x : Except ε α} {f : α → Except ε β} {b : β} :
    (x >>= f) = .ok b ↔ ∃ a, x = .ok a ∧ f a = .ok b := by
  cases x <;> simp [bind, Except.bind]

/-- A computation in two steps fails if one of them does. -/
theorem bind_eq_error {ε α β : Type} {x : Except ε α} {f : α → Except ε β} {e : ε} :
    (x >>= f) = .error e ↔ x = .error e ∨ ∃ a, x = .ok a ∧ f a = .error e := by
  cases x <;> simp [bind, Except.bind]

end Except

namespace SnapshotDiff

open FieldShape

namespace Node

variable {P : Json → Prop} {family : Family} {path : String} {v : Json} {n : Node}

/-- Fields without repetition of a name make an object fit if each of them fits. -/
theorem Fits.of_entries {typeName : String} {fields : List (String × FieldShape)}
    {fs : Table Node} (hnames : (fields.map Prod.fst).Nodup) (hasc : fs.Ascending)
    (h : ∀ f ∈ fs, ∃ s, (f.1, s) ∈ fields ∧ Fits P s f.2) :
    Fits P (.object typeName fields) (.object fs) := by
  refine .object hasc (fun f hf => ?_) fun name s n hs hn => ?_
  · obtain ⟨s, hs, -⟩ := h f hf
    exact List.mem_map.mpr ⟨_, hs, rfl⟩
  · obtain ⟨s', hs', hfits⟩ := h _ (Table.mem_of_get?_eq_some hn)
    obtain rfl := List.eq_of_nodup_keys hnames hs hs'
    exact hfits

/-! ### Values -/

theorem fits_ofLeaf {kind : Leaf} (h : ofLeaf family kind v path = .ok n) :
    Fits P (.leaf kind) n := by
  unfold ofLeaf at h
  split at h
  · next k hk =>
    obtain rfl := Except.ok.inj h
    exact .leaf hk
  · simp at h

theorem objectMembers_eq_ok {ms : Table Json} :
    objectMembers family v path = .ok ms ↔ v = .obj ms := by
  cases v <;> simp [objectMembers]

theorem arrayItems_eq_ok {vs : List Json} : arrayItems family v path = .ok vs ↔ v = .arr vs := by
  cases v <;> simp [arrayItems]

section Items

variable {read : Json → String → Except DiffError Node} {vs : List Json} {ms : List Node} {i : Nat}

/-- Items that are not `null` are read one after the other. -/
theorem ofItems_cons (hv : v ≠ .null) :
    ofItems read path i (v :: vs) = (read v (Path.item path i) >>= fun n =>
      ofItems read path (i + 1) vs >>= fun ns => pure (n :: ns)) := by
  rw [ofItems]
  exact hv

theorem ofItems_cons_eq_ok (hv : v ≠ .null) :
    ofItems read path i (v :: vs) = .ok ms ↔ ∃ n ns, read v (Path.item path i) = .ok n
      ∧ ofItems read path (i + 1) vs = .ok ns ∧ ms = n :: ns := by
  rw [ofItems_cons hv, Except.bind_eq_ok]
  constructor
  · rintro ⟨n, hn, h⟩
    obtain ⟨ns, hns, h⟩ := Except.bind_eq_ok.mp h
    exact ⟨n, ns, hn, hns, (Except.ok.inj h).symm⟩
  · rintro ⟨n, ns, hn, hns, rfl⟩
    exact ⟨n, hn, Except.bind_eq_ok.mpr ⟨ns, hns, rfl⟩⟩

/-- Every member that was read comes from an item. -/
theorem exists_item_of_ofItems (h : ofItems read path i vs = .ok ms) :
    ∀ m ∈ ms, ∃ v ∈ vs, v ≠ .null ∧ ∃ p, read v p = .ok m := by
  induction vs generalizing i ms with
  | nil =>
    unfold ofItems at h
    obtain rfl := Except.ok.inj h
    simp
  | cons v vs ih =>
    -- items that are `null` are passed over
    by_cases hv : v = .null
    · subst hv
      unfold ofItems at h
      intro m hm
      obtain ⟨w, hw, hread⟩ := ih h m hm
      exact ⟨w, List.mem_cons_of_mem _ hw, hread⟩
    · obtain ⟨n, ns, hn, hns, rfl⟩ := (ofItems_cons_eq_ok hv).mp h
      intro m hm
      rcases List.mem_cons.mp hm with rfl | hm
      · exact ⟨v, List.mem_cons_self, hv, _, hn⟩
      · obtain ⟨w, hw, hread⟩ := ih hns m hm
        exact ⟨w, List.mem_cons_of_mem _ hw, hread⟩

/-- Every item that is not `null` is read as a member. -/
theorem exists_member_of_ofItems (h : ofItems read path i vs = .ok ms) :
    ∀ v ∈ vs, v ≠ .null → ∃ m ∈ ms, ∃ p, read v p = .ok m := by
  induction vs generalizing i ms with
  | nil => exact fun v hv => absurd hv List.not_mem_nil
  | cons v vs ih =>
    intro w hw hnull
    by_cases hv : v = .null
    · subst hv
      unfold ofItems at h
      exact ih h w ((List.mem_cons.mp hw).resolve_left hnull) hnull
    · obtain ⟨n, ns, hn, hns, rfl⟩ := (ofItems_cons_eq_ok hv).mp h
      rcases List.mem_cons.mp hw with rfl | hw
      · exact ⟨n, List.mem_cons_self, _, hn⟩
      · obtain ⟨m, hm, hread⟩ := ih hns w hw hnull
        exact ⟨m, List.mem_cons_of_mem _ hm, hread⟩

/-- An array is read if each of its items is, wherever it stands. -/
theorem exists_ofItems (h : ∀ v ∈ vs, v ≠ .null → ∀ p, ∃ m, read v p = .ok m) :
    ∃ ms, ofItems read path i vs = .ok ms := by
  induction vs generalizing i with
  | nil => exact ⟨[], by rw [ofItems]⟩
  | cons v vs ih =>
    obtain ⟨hthis, hrest⟩ := List.forall_mem_cons.mp h
    obtain ⟨ns, hns⟩ := ih (i := i + 1) hrest
    by_cases hv : v = .null
    · subst hv
      exact ⟨ns, by rw [ofItems, hns]⟩
    · obtain ⟨n, hn⟩ := hthis hv (Path.item path i)
      exact ⟨n :: ns, (ofItems_cons_eq_ok hv).mpr ⟨n, ns, hn, hns, rfl⟩⟩

end Items

/-! ### Objects -/

/-- A declared field that a snapshot has is one that is there and not `null`. -/
def Holds (members : Table Json) (name : String) (v : Json) : Prop :=
  members.get? name = some v ∧ v ≠ .null

section Cons

variable {members : Table Json} {done : Table Node} {name : String} {s : FieldShape}
  {rest : List (String × FieldShape)}

/-- A field that the members hold is read before the rest. -/
theorem readFields_cons_of_holds (h : Holds members name v) :
    readFields family path members done ((name, s) :: rest)
      = (readField family (Path.child path name) v s >>= fun n =>
          readFields family path members (done.insert name n) rest) := by
  rw [readFields, h.1]
  split
  · next hv => exact absurd hv (by simp)
  · next hv => exact absurd (Option.some.inj hv) h.2
  · next hv =>
    obtain rfl := Option.some.inj hv
    rfl

/-- A field that the members do not hold is passed over. -/
theorem readFields_cons_of_not_holds (h : ∀ v, ¬ Holds members name v) :
    readFields family path members done ((name, s) :: rest)
      = readFields family path members done rest := by
  rw [readFields]
  split
  · rfl
  · rfl
  · next v hnull hget => exact absurd ⟨hget, hnull⟩ (h v)

end Cons

/-- Reading fields that are each declared once: every field that the members hold is read and
found under its name, and what was there under other names still is. -/
theorem readFields_spec {members : Table Json} {rest : List (String × FieldShape)}
    (hnames : (rest.map Prod.fst).Nodup) : ∀ {done t : Table Node},
      readFields family path members done rest = .ok t → done.Ascending → t.Ascending
        ∧ (∀ name, (∀ s v, (name, s) ∈ rest → ¬ Holds members name v) →
            t.get? name = done.get? name)
        ∧ ∀ name s v, (name, s) ∈ rest → Holds members name v →
          ∃ n, readField family (Path.child path name) v s = .ok n ∧ t.get? name = some n := by
  induction rest with
  | nil =>
    intro done t h hdone
    rw [readFields] at h
    obtain rfl := Except.ok.inj h
    exact ⟨hdone, fun _ _ => rfl, fun _ _ _ hs => absurd hs List.not_mem_nil⟩
  | cons d rest ih =>
    obtain ⟨name, s⟩ := d
    obtain ⟨hname, hrest⟩ := List.nodup_cons.mp hnames
    intro done t h hdone
    -- the field under the first name is either read, or not there to be read
    by_cases hheld : ∃ v, Holds members name v
    · obtain ⟨v, hv⟩ := hheld
      rw [readFields_cons_of_holds hv, Except.bind_eq_ok] at h
      obtain ⟨n, hn, h⟩ := h
      obtain ⟨hasc, hother, hread⟩ := ih hrest h (Table.ascending_insert hdone name n)
      refine ⟨hasc, fun k hk => ?_, fun k s' w hs' hw => ?_⟩
      · have hne : name ≠ k := by
          rintro rfl
          exact hk s v List.mem_cons_self hv
        rw [hother k fun s v hs => hk s v (List.mem_cons_of_mem _ hs), Table.get?_insert,
          if_neg hne]
      · rcases List.mem_cons.mp hs' with heq | hs'
        · obtain ⟨rfl, rfl⟩ := Prod.mk.inj heq
          obtain rfl := Option.some.inj (hw.1.symm.trans hv.1)
          refine ⟨n, hn, ?_⟩
          rw [hother k fun s v hs => absurd (List.mem_map_of_mem hs) hname, Table.get?_insert,
            if_pos rfl]
        · exact hread k s' w hs' hw
    · rw [not_exists] at hheld
      rw [readFields_cons_of_not_holds hheld] at h
      obtain ⟨hasc, hother, hread⟩ := ih hrest h hdone
      refine ⟨hasc, fun k hk => hother k fun s v hs => hk s v (List.mem_cons_of_mem _ hs), ?_⟩
      intro k s' w hs' hw
      rcases List.mem_cons.mp hs' with heq | hs'
      · obtain ⟨rfl, rfl⟩ := Prod.mk.inj heq
        exact absurd hw (hheld w)
      · exact hread k s' w hs' hw

/-- A leaf that was read has the value that the members hold. -/
theorem get?_leaf_of_readFields {members : Table Json} {fields : List (String × FieldShape)}
    {fs : Table Node} {name : String} {kind : Leaf} (hnames : (fields.map Prod.fst).Nodup)
    (hdeclared : (name, .leaf kind) ∈ fields)
    (h : readFields family path members [] fields = .ok fs) :
    (fs.get? name).map json = (members.get? name).filter fun v => !v.isNull := by
  obtain ⟨-, hother, hread⟩ := readFields_spec hnames h List.Pairwise.nil
  by_cases hheld : ∃ v, Holds members name v
  · obtain ⟨v, hget, hnull⟩ := hheld
    obtain ⟨n, hn, hfs⟩ := hread _ _ v hdeclared ⟨hget, hnull⟩
    have hjson : n.json = v := by
      rw [readField, ofLeaf] at hn
      split at hn
      · rw [← Except.ok.inj hn, json]
      · exact absurd hn (by simp)
    have hkept : (!v.isNull) = true := by
      rwa [Bool.not_eq_true', ← Bool.not_eq_true, Json.isNull_eq_true_iff]
    rw [hfs, hget, Option.map_some, hjson, Option.filter_some, if_pos hkept]
  · rw [not_exists] at hheld
    rw [hother _ fun _ v _ hv => hheld v hv, Table.get?_nil, Option.map_none]
    cases hget : members.get? name with
    | none => rfl
    | some v =>
      have hnull : v = .null := by
        by_contra hne
        exact hheld v ⟨hget, hne⟩
      rw [hnull]
      rfl

/-- The fields of an object are read if each one that the members hold is. -/
theorem exists_readFields {members : Table Json} {rest : List (String × FieldShape)}
    (h : ∀ name s v, (name, s) ∈ rest → Holds members name v →
      ∃ n, readField family (Path.child path name) v s = .ok n) :
    ∀ done, ∃ t, readFields family path members done rest = .ok t := by
  induction rest with
  | nil => exact fun done => ⟨done, by rw [readFields]⟩
  | cons d rest ih =>
    obtain ⟨name, s⟩ := d
    intro done
    have hrest := ih fun k s' v hs' => h k s' v (List.mem_cons_of_mem _ hs')
    by_cases hheld : ∃ v, Holds members name v
    · obtain ⟨v, hv⟩ := hheld
      obtain ⟨n, hn⟩ := h name s v List.mem_cons_self hv
      obtain ⟨t, ht⟩ := hrest (done.insert name n)
      rw [readFields_cons_of_holds hv]
      exact ⟨t, Except.bind_eq_ok.mpr ⟨n, hn, ht⟩⟩
    · rw [readFields_cons_of_not_holds (not_exists.mp hheld)]
      exact hrest done

/-- The object that was read from members fits its declaration. -/
theorem fits_readFields {typeName : String} {members : Table Json}
    {fields : List (String × FieldShape)} {fs : Table Node} (hnames : (fields.map Prod.fst).Nodup)
    (hread : ∀ f ∈ fields, ∀ {p v n}, members.get? f.1 = some v →
      readField family p v f.2 = .ok n → Fits P f.2 n)
    (h : readFields family path members [] fields = .ok fs) :
    Fits P (.object typeName fields) (object fs) := by
  obtain ⟨hasc, hother, hpresent⟩ := readFields_spec hnames h List.Pairwise.nil
  refine .of_entries hnames hasc fun f hf => ?_
  have hget := (Table.get?_eq_some_iff hasc).mpr hf
  by_cases hheld : ∃ s v, (f.1, s) ∈ fields ∧ Holds members f.1 v
  · obtain ⟨s, v, hs, hv⟩ := hheld
    obtain ⟨n, hn, hget'⟩ := hpresent f.1 s v hs hv
    obtain rfl := Option.some.inj (hget'.symm.trans hget)
    exact ⟨s, hs, hread _ hs hv.1 hn⟩
  · -- what the members do not hold was not read
    rw [hother f.1 fun s v hs hv => hheld ⟨s, v, hs, hv⟩] at hget
    simp at hget

/-- **A value that was read fits the declaration it was read against.** -/
theorem fits_readField (hP : Json.Hereditary P) {s : FieldShape}
    (hs : s.everyObject alphanumeric) :
    ∀ {path v n}, P v → readField family path v s = .ok n → Fits P s n := by
  -- fields and members that are objects are read in the same way
  have hobject : ∀ typeName (fields : List (String × FieldShape)),
      (∀ f ∈ fields, f.2.everyObject alphanumeric → ∀ {path v n}, P v →
        readField family path v f.2 = .ok n → Fits P f.2 n) →
      everyObject alphanumeric (.object typeName fields) → ∀ {path v n}, P v →
      (do return object (← readFields family path (← objectMembers family v path) [] fields))
        = .ok n → Fits P (.object typeName fields) n := by
    intro typeName fields ih hs path v n hv h
    obtain ⟨hnames, hfields⟩ := everyObject_object.mp hs
    obtain ⟨ms, hms, h⟩ := Except.bind_eq_ok.mp h
    obtain ⟨fs, hfs, h⟩ := Except.bind_eq_ok.mp h
    obtain rfl := Except.ok.inj h
    obtain rfl := objectMembers_eq_ok.mp hms
    exact fits_readFields (nodup_of_alphanumeric hnames)
      (fun f hf _ _ _ hget => ih f hf (hfields f hf) (hP.member hv hget)) hfs
  induction s using fieldInduction with
  | leaf kind =>
    intro path v n _ h
    rw [readField] at h
    exact fits_ofLeaf h
  | object typeName fields ih =>
    intro path v n hv h
    rw [readField] at h
    exact hobject typeName fields ih hs hv h
  | leaves kind =>
    intro path v n _ h
    rw [readField] at h
    obtain ⟨vs, -, h⟩ := Except.bind_eq_ok.mp h
    obtain ⟨ms, hms, h⟩ := Except.bind_eq_ok.mp h
    obtain rfl := Except.ok.inj h
    refine .leaves fun m hm => ?_
    obtain ⟨w, -, -, p, hw⟩ := exists_item_of_ofItems hms m hm
    exact fits_ofLeaf hw
  | objects typeName fields identity ih =>
    intro path v n hv h
    rw [everyObject_objects] at hs
    rw [readField] at h
    obtain ⟨vs, hvs, h⟩ := Except.bind_eq_ok.mp h
    obtain ⟨ms, hms, h⟩ := Except.bind_eq_ok.mp h
    obtain rfl := Except.ok.inj h
    obtain rfl := arrayItems_eq_ok.mp hvs
    refine .objects fun m hm => ?_
    obtain ⟨w, hw, -, p, hread⟩ := exists_item_of_ofItems hms m hm
    exact hobject typeName fields ih hs (hP.item hv hw) hread
  | free =>
    intro path v n hv h
    rw [readField] at h
    obtain ⟨ms, hms, h⟩ := Except.bind_eq_ok.mp h
    obtain rfl := Except.ok.inj h
    obtain rfl := objectMembers_eq_ok.mp hms
    exact .free hv

/-! ### Missing objects -/

/-- Creating the objects on a path leaves every field but the first one on it as it was. -/
theorem get?_openObjects_of_ne {fs : Table Node} {name key : String} {names : List String}
    (h : name ≠ key) : (openObjects fs (name :: names)).1.get? key = fs.get? key := by
  unfold openObjects
  split
  · rw [Table.get?_insert, if_neg h]
  · rw [Table.get?_insert, if_neg h]
  · rfl

theorem Fits.nil {typeName : String} {fields : List (String × FieldShape)} :
    Fits P (.object typeName fields) (.object []) :=
  .object List.Pairwise.nil (by simp) fun _ _ _ _ hn => by simp at hn

/-- Putting what fits its declaration into an object that fits leaves it fitting. -/
theorem Fits.insert {typeName name : String} {fields : List (String × FieldShape)}
    {fs : Table Node} {s : FieldShape} (h : Fits P (.object typeName fields) (.object fs))
    (hnames : (fields.map Prod.fst).Nodup) (hs : (name, s) ∈ fields) (hn : Fits P s n) :
    Fits P (.object typeName fields) (.object (fs.insert name n)) := by
  refine .of_entries hnames (Table.ascending_insert h.ascending_fields name n) fun f hf => ?_
  rcases Table.mem_insert hf with rfl | hf
  · exact ⟨s, hs, hn⟩
  · exact h.exists_declaration hf

theorem mem_of_object?_eq_some {shape child : Shape} {name : String}
    (h : shape.object? name = some child) :
    (name, FieldShape.object child.typeName child.fields) ∈ shape.fields := by
  unfold Shape.object? at h
  split at h
  · next hfield =>
    obtain rfl := Option.some.inj h
    exact List.mem_of_lookup_eq_some hfield
  · simp at h

/-- A path of the shape begins with a field that is declared as an object. -/
theorem exists_child_of_objectBelow? {shape : Shape} {name : String} {names : List String}
    (h : (shape.objectBelow? (name :: names)).isSome) : ∃ child : Shape,
      (name, FieldShape.object child.typeName child.fields) ∈ shape.fields
        ∧ (child.objectBelow? names).isSome := by
  obtain ⟨found, hfound⟩ := Option.isSome_iff_exists.mp h
  obtain ⟨child, hchild, hrest⟩ := Option.bind_eq_some_iff.mp hfound
  exact ⟨child, mem_of_object?_eq_some hchild, Option.isSome_iff_exists.mpr ⟨found, hrest⟩⟩

/-- Creating the objects on a path of the shape leaves an object fitting. -/
theorem Fits.openObjects {names : List String} : ∀ {shape : Shape} {fs : Table Node},
    everyObject alphanumeric (.object shape.typeName shape.fields) →
      (shape.objectBelow? names).isSome →
        Fits P (.object shape.typeName shape.fields) (.object fs) →
          Fits P (.object shape.typeName shape.fields) (.object (Node.openObjects fs names).1) := by
  induction names with
  | nil => exact fun _ _ h => h
  | cons name names ih =>
    intro shape fs hs hbelow h
    obtain ⟨hnames, hfields⟩ := everyObject_object.mp hs
    obtain ⟨child, hmem, hbelow'⟩ := exists_child_of_objectBelow? hbelow
    have hinner := hfields _ hmem
    unfold Node.openObjects
    split
    · exact h.insert (nodup_of_alphanumeric hnames) hmem (ih hinner hbelow' .nil)
    · next inner hget =>
      exact h.insert (nodup_of_alphanumeric hnames) hmem (ih hinner hbelow' (h.field hmem hget))
    · exact h

end Node

/-! ### Entities -/

namespace Rules

/-- What is declared for the root of a snapshot. -/
def root (rules : Rules) : FieldShape := .object rules.shape.typeName rules.shape.fields

/-- Bringing a snapshot into the layout of the shape preserves the property `P` of objects. -/
def Preserves (rules : Rules) (P : Json → Prop) : Prop :=
  ∀ ms out : Table Json, P (.obj ms) → rules.reshaped ms = .ok out → P (.obj out)

/-- Rules that take snapshots as they are preserve every property. -/
theorem preserves_of_reshape?_eq_none {rules : Rules} (h : rules.reshape? = none)
    (P : Json → Prop) : rules.Preserves P := by
  intro ms out hms hout
  rw [reshaped, h] at hout
  obtain rfl := Except.ok.inj hout
  exact hms

end Rules

namespace Entity

variable {P : Json → Prop} {rules : Rules} {snapshot : Option Json} {e : Entity}

/-- An entity fits the shape of the rules. -/
def Fits (P : Json → Prop) (rules : Rules) (e : Entity) : Prop :=
  Node.Fits P (.object rules.shape.typeName rules.shape.fields) (.object e.root)

theorem readRoot_of_absent (h : snapshot = none ∨ snapshot = some .null) :
    readRoot rules snapshot = .ok [] := by
  rcases h with rfl | rfl <;> rfl

/-- What success of reading the fields of the root means. -/
theorem readRoot_eq_ok {root : Table Node} : readRoot rules snapshot = .ok root ↔
    (snapshot = none ∨ snapshot = some .null) ∧ root = []
      ∨ ∃ ms out, snapshot = some (.obj ms) ∧ rules.reshaped ms = .ok out
        ∧ checkFamily rules out = .ok ()
        ∧ Node.readFields rules.family "" out [] rules.shape.fields = .ok root := by
  constructor
  · intro h
    match snapshot, h with
    | none, h => exact Or.inl ⟨Or.inl rfl, (Except.ok.inj h).symm⟩
    | some .null, h => exact Or.inl ⟨Or.inr rfl, (Except.ok.inj h).symm⟩
    | some (.obj ms), h =>
      obtain ⟨out, hout, h⟩ := Except.bind_eq_ok.mp h
      obtain ⟨_, hcheck, hread⟩ := Except.bind_eq_ok.mp h
      exact Or.inr ⟨ms, out, rfl, hout, hcheck, hread⟩
    | some (.bool _), h | some (.int _), h | some (.float _), h | some (.str _), h
    | some (.arr _), h => simp [readRoot] at h
  · rintro (⟨habsent, rfl⟩ | ⟨ms, out, rfl, hout, hcheck, hread⟩)
    · exact readRoot_of_absent habsent
    · rw [readRoot]
      exact Except.bind_eq_ok.mpr ⟨out, hout, Except.bind_eq_ok.mpr ⟨(), hcheck, hread⟩⟩

theorem fits_readRoot (hP : Json.Hereditary P) (hs : rules.shape.isAlphanumeric)
    (hrules : rules.Preserves P) (hsnapshot : ∀ v ∈ snapshot, P v) {root : Table Node}
    (h : readRoot rules snapshot = .ok root) :
    Node.Fits P (.object rules.shape.typeName rules.shape.fields) (.object root) := by
  rcases readRoot_eq_ok.mp h with ⟨-, rfl⟩ | ⟨ms, out, rfl, hout, -, hread⟩
  · exact .nil
  · have hroot := hrules ms out (hsnapshot _ rfl) hout
    obtain ⟨hnames, hfields⟩ := everyObject_object.mp hs
    exact Node.fits_readFields (nodup_of_alphanumeric hnames)
      (fun f hf _ _ _ hget => Node.fits_readField hP (hfields f hf) (hP.member hroot hget)) hread

/-- Creating a default object leaves an entity fitting. -/
theorem fits_openDefault (hs : rules.shape.isAlphanumeric) {root : Table Node} (path : String)
    (h : Node.Fits P (.object rules.shape.typeName rules.shape.fields) (.object root)) :
    Node.Fits P (.object rules.shape.typeName rules.shape.fields)
      (.object (openDefault rules.shape root path)) := by
  unfold openDefault
  split
  · next hpath => exact h.openObjects hs hpath
  · exact h

/-- What success of reading a snapshot means. -/
theorem ofSnapshot_eq_ok : ofSnapshot rules snapshot = .ok e ↔
    ∃ root, readRoot rules snapshot = .ok root
      ∧ e = ⟨rules.family, rules.defaultObjects.foldl (openDefault rules.shape) root⟩ := by
  rw [ofSnapshot, Except.bind_eq_ok]
  constructor
  · rintro ⟨root, hroot, he⟩
    exact ⟨root, hroot, (Except.ok.inj he).symm⟩
  · rintro ⟨root, hroot, rfl⟩
    exact ⟨root, hroot, rfl⟩

/-- The entity of a snapshot is one of the rules' family. -/
theorem family_of_ofSnapshot (h : ofSnapshot rules snapshot = .ok e) : e.family = rules.family := by
  obtain ⟨root, -, rfl⟩ := ofSnapshot_eq_ok.mp h
  rfl

/-- **The entity of a snapshot fits the shape of its rules**, and what its free objects hold has
every hereditary property that the snapshot has. -/
theorem fits_ofSnapshot (hP : Json.Hereditary P) (hs : rules.shape.isAlphanumeric)
    (hrules : rules.Preserves P) (hsnapshot : ∀ v ∈ snapshot, P v)
    (h : ofSnapshot rules snapshot = .ok e) : e.Fits P rules := by
  obtain ⟨root, hroot, rfl⟩ := ofSnapshot_eq_ok.mp h
  -- default objects are created one by one
  exact List.foldlRecOn (motive := fun root =>
      Node.Fits P (.object rules.shape.typeName rules.shape.fields) (.object root))
    rules.defaultObjects (openDefault rules.shape) (fits_readRoot hP hs hrules hsnapshot hroot)
    fun _ h path _ => fits_openDefault hs path h

end Entity

end SnapshotDiff
