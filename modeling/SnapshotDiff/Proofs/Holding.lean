import SnapshotDiff.Proofs.Node.Firsts
import SnapshotDiff.Proofs.Node.Members
import SnapshotDiff.Proofs.Path
import SnapshotDiff.Rules

/-!
# What an entity holds

The places of an entity that a record can tell of, with what is there, by one walk over the entity
alone.  Default objects are walked through; a nested object that is none, a value of a free object
and a collection are one place each, unless they are empty.

## Main definitions

* `Holding` — a place with what is there: a value, or the distinct members of a collection.
* `Entity.holdings` — the reportable places of an entity, in declared order.

## Main results

* `Holding.reportable_of_mem_ofFields` — only reportable places are listed.
* `Holding.nodup_path_of_fields`, `Holding.nodup_path_ofField` — **no place is listed twice.**
-/

namespace SnapshotDiff

/-- A place of an entity, with what is there. -/
inductive Holding
  /-- A leaf, a whole object, or a value of a free object. -/
  | value (name path : String) (value : Json)
  /-- The distinct members of a collection. -/
  | collection (path : String) (members : List Json)
  deriving Repr

namespace Holding

/-- The path of the place. -/
def path : Holding → String
  | value _ path _ => path
  | collection path _ => path

/-- The value under a key of the free object at a path, unless it is `null`. -/
def ofFree? (rules : Rules) (path : String) (m : String × Json) : Option Holding :=
  if rules.reportable (Path.child path m.1) && !m.2.isNull then
    some (value m.1 (Path.child path m.1) m.2)
  else none

/-- The members of the collection at a path, unless there are none. -/
def ofMembers (path : String) (identity : Option String) (ns : List Node) : List Holding :=
  if ns.isEmpty then [] else [collection path ((Node.firsts identity ns).map Node.json)]

mutual

/-- The places of an object at a path. -/
def ofFields (rules : Rules) (path : String) (fs : Table Node) :
    List (String × FieldShape) → List Holding
  | [] => []
  | (name, s) :: rest =>
    (if rules.reportable (Path.child path name) then
      ofField rules name (Path.child path name) (fs.get? name) s
    else []) ++ ofFields rules path fs rest

/-- The places of a field at a path. -/
def ofField (rules : Rules) (name path : String) (n : Option Node) : FieldShape → List Holding
  | .leaf _ => ((n.bind Node.leaf?).map fun l => value name path l.1).toList
  | .object _ fields =>
    let fs := (n.bind Node.object?).getD []
    if rules.defaultObjects.contains path then ofFields rules path fs fields
    else if fs.isEmpty then [] else [value name path (Node.object fs).json]
  | .leaves _ => ofMembers path none (Finding.members n)
  | .objects _ _ identity => ofMembers path identity (Finding.members n)
  | .free => ((n.bind Node.free?).getD []).filterMap (ofFree? rules path)

end

end Holding

/-- The reportable places of an entity that something is at, in declared order. -/
def Entity.holdings (rules : Rules) (e : Entity) : List Holding :=
  Holding.ofFields rules "" e.root rules.shape.fields

namespace Holding

variable {rules : Rules} {path : String}

theorem ofFields_eq_flatMap (fs : Table Node) (fields : List (String × FieldShape)) :
    ofFields rules path fs fields = fields.flatMap fun f =>
      if rules.reportable (Path.child path f.1) then
        ofField rules f.1 (Path.child path f.1) (fs.get? f.1) f.2
      else [] := by
  induction fields with
  | nil => rw [ofFields]; rfl
  | cons f fields ih => rw [ofFields, ih, List.flatMap_cons]

theorem ofFree?_eq_some_iff {m : String × Json} {h : Holding} : ofFree? rules path m = some h
    ↔ rules.reportable (Path.child path m.1) ∧ m.2 ≠ .null
      ∧ h = value m.1 (Path.child path m.1) m.2 := by
  unfold ofFree?
  split
  · next hif =>
    rw [Bool.and_eq_true, Bool.not_eq_true', ← Bool.not_eq_true, Json.isNull_eq_true_iff] at hif
    rw [Option.some.injEq, eq_comm (b := h)]
    exact ⟨fun heq => ⟨hif.1, hif.2, heq⟩, fun heq => heq.2.2⟩
  · next hif =>
    rw [Bool.and_eq_true, Bool.not_eq_true', ← Bool.not_eq_true, Json.isNull_eq_true_iff] at hif
    exact iff_of_false (by simp) fun heq => hif ⟨heq.1, heq.2.1⟩

/-! ### Where the places are -/

/-- The places of a field are reportable, and lie below it. -/
theorem spec_ofField (s : FieldShape) : ∀ {name path : String} {n : Option Node}, path ≠ "" →
    rules.reportable path → ∀ h ∈ ofField rules name path n s,
      rules.reportable h.path ∧ Path.within h.path path := by
  have hself : ∀ {path : String} {h : Holding}, rules.reportable path → h.path = path →
      rules.reportable h.path ∧ Path.within h.path path := by
    rintro path h hreport rfl
    exact ⟨hreport, Path.within_self _⟩
  have hmembers : ∀ {path : String} {identity : Option String} {ns : List Node},
      rules.reportable path → ∀ h ∈ ofMembers path identity ns,
        rules.reportable h.path ∧ Path.within h.path path := by
    intro path identity ns hreport h hh
    unfold ofMembers at hh
    split at hh
    · exact absurd hh List.not_mem_nil
    · exact hself hreport (by rw [List.mem_singleton.mp hh, Holding.path])
  induction s using FieldShape.fieldInduction with
  | leaf kind =>
    intro name path n _ hreport h hh
    rw [ofField, Option.mem_toList, Option.map_eq_some_iff] at hh
    obtain ⟨l, -, rfl⟩ := hh
    exact hself hreport rfl
  | object typeName fields ih =>
    intro name path n hpath hreport h hh
    rw [ofField] at hh
    split at hh
    · rw [ofFields_eq_flatMap] at hh
      obtain ⟨f, hf, hh⟩ := List.mem_flatMap.mp hh
      split at hh
      · next hbelow =>
        obtain ⟨hown, hwithin⟩ := ih f hf (Path.child_ne_empty_of_ne hpath f.1) hbelow h hh
        exact ⟨hown, Path.within_trans hwithin (Path.within_child hpath f.1)⟩
      · exact absurd hh List.not_mem_nil
    · split at hh
      · exact absurd hh List.not_mem_nil
      · exact hself hreport (by rw [List.mem_singleton.mp hh, Holding.path])
  | leaves kind =>
    intro name path n _ hreport
    rw [ofField]
    exact hmembers hreport
  | objects typeName fields identity ih =>
    intro name path n _ hreport
    rw [ofField]
    exact hmembers hreport
  | free =>
    intro name path n hpath _ h hh
    rw [ofField] at hh
    obtain ⟨m, -, hm⟩ := List.mem_filterMap.mp hh
    obtain ⟨hreport, -, rfl⟩ := ofFree?_eq_some_iff.mp hm
    exact ⟨hreport, Path.within_child hpath m.1⟩

/-- Only reportable places are listed. -/
theorem reportable_of_mem_ofFields {fs : Table Node} {fields : List (String × FieldShape)}
    (hpath : ∀ f ∈ fields, Path.child path f.1 ≠ "") :
    ∀ h ∈ ofFields rules path fs fields, rules.reportable h.path := by
  intro h hh
  rw [ofFields_eq_flatMap] at hh
  obtain ⟨f, hf, hh⟩ := List.mem_flatMap.mp hh
  split at hh
  · next hreport => exact (spec_ofField f.2 (hpath f hf) hreport h hh).1
  · exact absurd hh List.not_mem_nil

/-! ### No place twice -/

theorem nodup_path_of_fields {fs : Table Node} {fields : List (String × FieldShape)}
    (halpha : alphanumeric (fields.map Prod.fst)) (hpath : ∀ f ∈ fields, Path.child path f.1 ≠ "")
    (ih : ∀ f ∈ fields, ∀ {name path : String}, path ≠ "" →
      ((ofField rules name path (fs.get? f.1) f.2).map Holding.path).Nodup) :
    ((ofFields rules path fs fields).map Holding.path).Nodup := by
  rw [ofFields_eq_flatMap, List.map_flatMap, List.nodup_flatMap]
  constructor
  · intro f hf
    split
    · exact ih f hf (hpath f hf)
    · exact List.nodup_nil
  · have hnames := List.pairwise_map.mp
      (List.nodup_iff_pairwise_ne.mp (nodup_of_alphanumeric halpha))
    refine hnames.imp_of_mem fun {f g} hf hg hne => ?_
    -- a place that two fields share would lie below both
    have hbelow : ∀ {f : String × FieldShape} {p : String}, f ∈ fields →
        p ∈ (if rules.reportable (Path.child path f.1) then
          ofField rules f.1 (Path.child path f.1) (fs.get? f.1) f.2 else []).map Holding.path →
          Path.within p (Path.child path f.1) := by
      intro f p hf hp
      obtain ⟨h, hh, rfl⟩ := List.mem_map.mp hp
      split at hh
      · next hreport => exact (spec_ofField f.2 (hpath f hf) hreport h hh).2
      · exact absurd hh List.not_mem_nil
    intro p hpf hpg
    have heq := eq_of_within_fields halpha hf hg (hbelow hf hpf) (hbelow hg hpg)
    exact hne (congrArg Prod.fst heq)

theorem nodup_path_ofField {s : FieldShape} (hs : s.everyObject alphanumeric) :
    ∀ {name path : String} {n : Option Node}, path ≠ "" →
      (∀ m ∈ n, Node.Fits Json.Canonical s m) →
        ((ofField rules name path n s).map Holding.path).Nodup := by
  have hmembers : ∀ {path : String} {identity : Option String} {ns : List Node},
      ((ofMembers path identity ns).map Holding.path).Nodup := by
    intro path identity ns
    unfold ofMembers
    split
    · exact List.nodup_nil
    · exact List.nodup_singleton _
  induction s using FieldShape.fieldInduction with
  | leaf kind =>
    intro name path n _ _
    rw [ofField]
    cases n.bind Node.leaf? with
    | none => exact List.nodup_nil
    | some l => exact List.nodup_singleton _
  | object typeName fields ih =>
    intro name path n hpath hn
    obtain ⟨halpha, hfields⟩ := FieldShape.everyObject_object.mp hs
    rw [ofField]
    split
    · refine nodup_path_of_fields halpha (fun f _ => Path.child_ne_empty_of_ne hpath f.1)
        fun f hf {name path} hpath => ih f hf (hfields f hf) hpath fun m hm => ?_
      cases n with
      | none => simp at hm
      | some n =>
        obtain ⟨fs, rfl⟩ := (hn n rfl).exists_object
        exact (hn _ rfl).field hf hm
    · split
      · exact List.nodup_nil
      · exact List.nodup_singleton _
  | leaves kind =>
    intro name path n _ _
    rw [ofField]
    exact hmembers
  | objects typeName fields identity ih =>
    intro name path n _ _
    rw [ofField]
    exact hmembers
  | free =>
    intro name path n hpath hn
    rw [ofField]
    have hkeys := (Json.canonical_obj_iff.mp (Node.Fits.canonical_free hn)).1.nodup_keys
    generalize (n.bind Node.free?).getD [] = ms at hkeys
    -- keys are told apart by the paths below the path of their object
    have hchild : ∀ {a b : String}, Path.child path a = Path.child path b → a = b := by
      intro a b hab
      have hlist := congrArg String.toList hab
      rw [Path.child_eq_append hpath, Path.child_eq_append hpath] at hlist
      exact String.toList_inj.mp (List.cons.inj (List.append_cancel_left hlist)).2
    rw [List.nodup_iff_pairwise_ne, List.pairwise_map, List.pairwise_filterMap]
    refine (List.pairwise_map.mp (List.nodup_iff_pairwise_ne.mp hkeys)).imp ?_
    intro a b hne h ha h' hb hpaths
    obtain ⟨-, -, rfl⟩ := ofFree?_eq_some_iff.mp ha
    obtain ⟨-, -, rfl⟩ := ofFree?_eq_some_iff.mp hb
    exact hne (hchild hpaths)

end Holding

end SnapshotDiff
