import SnapshotDiff.Proofs.BuiltIn.Layout
import SnapshotDiff.Proofs.Comparison
import SnapshotDiff.Proofs.Correlation.Stems
import SnapshotDiff.Proofs.Finding.Ignoring

/-!
# Fields are compared independently

What is reported outside a field of the root depends on the other fields of the two snapshots only.
Reading one field does not look at another, what is found on a field is below it, and findings below
one field have no part in what is made of the findings below the others.

## Main definitions

* `Snapshot.AgreeApartFrom` — two snapshots have the same values in all fields but one.
* `Finding.IsBelow` — where the findings on a field of an object are.

## Main results

* `Entity.get?_ofSnapshot_congr` — a field of an entity is read from the field of the snapshot.
* `Finding.isBelow_of_mem_ofField` — what is found on a field of the root is below the field.
* `Rules.outside_diff_congr` — two comparisons whose snapshots agree apart from one field report the
  same outside this field.
-/

namespace SnapshotDiff

open FieldShape

/-! ### Reading -/

/-- The snapshots have the same value, or none, under every declared name but one. -/
def Snapshot.AgreeApartFrom (shape : Shape) (name : String) (s t : Option Json) : Prop :=
  ∀ f ∈ shape.fields, f.1 ≠ name → s.bind (·.member? f.1) = t.bind (·.member? f.1)

namespace Entity

variable {rules : Rules} {s t : Option Json} {root root' : Table Node} {f : String × FieldShape}

/-- A field of the root is read from the member under its name. -/
theorem get?_of_readRoot (hreshape : rules.reshape? = none)
    (hnames : (rules.shape.fields.map Prod.fst).Nodup) (hf : f ∈ rules.shape.fields)
    (h : readRoot rules s = .ok root) :
    (∃ v n, s.bind (·.member? f.1) = some v ∧ v ≠ .null
        ∧ Node.readField rules.family (Path.child "" f.1) v f.2 = .ok n ∧ root.get? f.1 = some n)
      ∨ (∀ v, s.bind (·.member? f.1) = some v → v = .null) ∧ root.get? f.1 = none := by
  rcases readRoot_eq_ok.mp h with ⟨habsent, rfl⟩ | ⟨ms, out, rfl, hout, -, hread⟩
  · refine Or.inr ⟨fun v hv => ?_, rfl⟩
    rcases habsent with rfl | rfl <;> simp [Json.member?, Json.members?] at hv
  · rw [Rules.reshaped, hreshape] at hout
    obtain rfl := Except.ok.inj hout
    obtain ⟨-, hother, hpresent⟩ := Node.readFields_spec hnames hread List.Pairwise.nil
    have hmember : (some (Json.obj ms)).bind (·.member? f.1) = Table.get? ms f.1 := rfl
    rw [hmember]
    by_cases hheld : ∃ v, Node.Holds ms f.1 v
    · obtain ⟨v, hv⟩ := hheld
      obtain ⟨n, hn, hget⟩ := hpresent f.1 f.2 v hf hv
      exact Or.inl ⟨v, n, hv.1, hv.2, hn, hget⟩
    · rw [not_exists] at hheld
      refine Or.inr ⟨fun v hv => ?_, hother f.1 fun _ v _ hv => hheld v hv⟩
      by_contra hne
      exact hheld v ⟨hv, hne⟩

theorem get?_readRoot_congr (hreshape : rules.reshape? = none)
    (hnames : (rules.shape.fields.map Prod.fst).Nodup) (hf : f ∈ rules.shape.fields)
    (hs : readRoot rules s = .ok root) (ht : readRoot rules t = .ok root')
    (h : s.bind (·.member? f.1) = t.bind (·.member? f.1)) : root.get? f.1 = root'.get? f.1 := by
  rcases get?_of_readRoot hreshape hnames hf hs with ⟨v, n, hv, hne, hn, hget⟩ | ⟨hnull, hget⟩
  · rcases get?_of_readRoot hreshape hnames hf ht with
      ⟨w, m, hw, -, hm, hget'⟩ | ⟨hnull', -⟩
    · obtain rfl := Option.some.inj (hv.symm.trans (h.trans hw))
      obtain rfl := Except.ok.inj (hn.symm.trans hm)
      rw [hget, hget']
    · exact absurd (hnull' v (h ▸ hv)) hne
  · rcases get?_of_readRoot hreshape hnames hf ht with
      ⟨w, m, hw, hne, -, -⟩ | ⟨-, hget'⟩
    · exact absurd (hnull w (h.trans hw)) hne
    · rw [hget, hget']

/-- Creating the objects on a path looks at one field only. -/
theorem get?_openObjects_congr {key : String} (h : root.get? key = root'.get? key)
    (names : List String) :
    (Node.openObjects root names).1.get? key = (Node.openObjects root' names).1.get? key := by
  cases names with
  | nil => exact h
  | cons name names =>
    by_cases hname : name = key
    · subst hname
      unfold Node.openObjects
      rw [h]
      cases hget : root'.get? name with
      | none => simp only [Table.get?_insert, if_true]
      | some n => cases n <;> simp only [Table.get?_insert, h, if_true]
    · rw [Node.get?_openObjects_of_ne hname, Node.get?_openObjects_of_ne hname, h]

theorem get?_openDefault_congr {key : String} (h : root.get? key = root'.get? key)
    (shape : Shape) (path : String) :
    (openDefault shape root path).get? key = (openDefault shape root' path).get? key := by
  unfold openDefault
  split
  · exact get?_openObjects_congr h _
  · exact h

/-- **A field of an entity is read from the field of the snapshot.** -/
theorem get?_ofSnapshot_congr (hreshape : rules.reshape? = none)
    (hnames : (rules.shape.fields.map Prod.fst).Nodup) (hf : f ∈ rules.shape.fields)
    {e e' : Entity} (hs : ofSnapshot rules s = .ok e) (ht : ofSnapshot rules t = .ok e')
    (h : s.bind (·.member? f.1) = t.bind (·.member? f.1)) : e.root.get? f.1 = e'.root.get? f.1 := by
  obtain ⟨root, hroot, rfl⟩ := ofSnapshot_eq_ok.mp hs
  obtain ⟨root', hroot', rfl⟩ := ofSnapshot_eq_ok.mp ht
  have hget := get?_readRoot_congr hreshape hnames hf hroot hroot' h
  clear hroot hroot' hs ht
  dsimp only
  induction rules.defaultObjects generalizing root root' with
  | nil => exact hget
  | cons path paths ih => exact ih _ _ (get?_openDefault_congr hget _ path)

end Entity

/-! ### Where findings are -/

namespace Finding

variable {rules : Rules} {root o : Owner} {path : String} {f : Finding}

/-- The finding is made on a field at a path, or below it: on the root that is below the path, and
on a member it is below the path that the member is below. -/
structure IsBelow (root o : Owner) (path : String) (f : Finding) : Prop where
  placed : Placed root f
  below : if o.isRoot then path ≠ "" → Path.within f.stem path else f.stem = o.stem

theorem IsBelow.of_child {name : String} (h : IsBelow root o (Path.child path name) f) :
    IsBelow root o path f := by
  refine ⟨h.placed, ?_⟩
  have hbelow := h.below
  split
  · next hroot =>
    intro hpath
    rw [if_pos hroot] at hbelow
    have hchild := hbelow (Path.child_ne_empty_of_ne hpath name)
    exact Path.within_trans hchild (Path.within_child hpath name)
  · next hroot => rwa [if_neg hroot] at hbelow

theorem isBelow_field (ho : o.isRoot → o = root) {c : FieldChange}
    (hc : path ≠ "" → Path.within c.path path) : IsBelow root o path (field o c) := by
  refine ⟨ho, ?_⟩
  split
  · next hroot => rwa [stem, if_pos hroot]
  · next hroot => rw [stem, if_neg hroot]

theorem isBelow_map_field (ho : o.isRoot → o = root) {cs : List FieldChange}
    (hcs : ∀ c ∈ cs, path ≠ "" → Path.within c.path path) :
    ∀ f ∈ cs.map (field o), IsBelow root o path f := by
  intro f hf
  obtain ⟨c, hc, rfl⟩ := List.mem_map.mp hf
  exact isBelow_field ho (hcs c hc)

/-- What has the stem of a member of a collection is below the collection. -/
theorem IsBelow.of_stem_member (ho : o.IsSited) (hpath : '[' ∉ path.toList)
    {typeName key : String} (hplaced : Placed root f)
    (h : f.stem = (o.member typeName path key).stem) : IsBelow root o path f := by
  refine ⟨hplaced, ?_⟩
  rw [h, Owner.stem_member ho hpath]
  split
  · exact fun _ => Path.within_self path
  · rfl

theorem isBelow_ofMember (ho : o.IsSited) (hpath : '[' ∉ path.toList) (typeName : String)
    (kind : ChangeKind) (key : String) (value : Json) :
    IsBelow root o path (ofMember o typeName path kind key value) :=
  .of_stem_member ho hpath
    ⟨Owner.isRoot_member _ _ _ _, Owner.stem_member ho hpath typeName key⟩ rfl

theorem isBelow_of_mem_ofSides (ho : o.IsSited) (hpath : '[' ∉ path.toList) {α : Type}
    {typeName : String} {json : α → Json} {both : String → α → α → List Finding}
    (hboth : ∀ k a b, ∀ f ∈ both k a b, IsBelow root o path f) {olds news : List (String × α)} :
    ∀ f ∈ sides (ofSides o typeName path json both) olds news, IsBelow root o path f := by
  intro f hf
  obtain ⟨k, a, b, -, -, hf⟩ := exists_of_mem_sides hf
  match a, b with
  | none, none => exact absurd hf List.not_mem_nil
  | some a, none | none, some b =>
    rw [List.mem_singleton.mp hf]
    exact isBelow_ofMember ho hpath _ _ _ _
  | some a, some b => exact hboth k a b f hf

/-- **What is found on a field of the root is below the field**, whatever its shape. -/
theorem isBelow_of_mem_ofField (s : FieldShape) (hs : s.everyObject alphanumeric) :
    ∀ {o : Owner} {name path : String} {old new : Option Node}, o.IsSited →
      (o.isRoot → o = root) → '[' ∉ path.toList →
        ∀ f ∈ ofField rules o name path old new s, IsBelow root o path f := by
  -- the fields of an object, and of a member of a collection, are at longer paths
  have hfields : ∀ {fields : List (String × FieldShape)}, alphanumeric (fields.map Prod.fst) →
      (∀ g ∈ fields, ∀ {o : Owner} {name path : String} {old new : Option Node}, o.IsSited →
        (o.isRoot → o = root) → '[' ∉ path.toList →
          ∀ f ∈ ofField rules o name path old new g.2, IsBelow root o path f) →
      ∀ {o : Owner} {path : String} {old new : Table Node}, o.IsSited → (o.isRoot → o = root) →
        '[' ∉ path.toList → ∀ f ∈ ofFields rules o path old new fields, IsBelow root o path f := by
    intro fields hnames ih o path old new ho hroot hpath f hf
    rw [ofFields_eq_flatMap] at hf
    obtain ⟨g, hg, hf⟩ := List.mem_flatMap.mp hf
    split at hf
    · have hname := notMem_of_alphanumeric hnames (List.mem_map_of_mem hg) (c := '[') (by decide)
      exact (ih g hg ho hroot (Path.notMem_child hpath hname (by decide)) f hf).of_child
    · exact absurd hf List.not_mem_nil
  induction s using fieldInduction with
  | leaf kind =>
    intro o name path old new _ hroot _
    rw [ofField, ofLeaves_eq_map]
    exact isBelow_map_field hroot fun c hc _ =>
      FieldChange.path_of_mem_ofLeaves hc ▸ Path.within_self _
  | object typeName fields ih =>
    intro o name path old new ho hroot hpath
    obtain ⟨hnames, hbelow⟩ := everyObject_object.mp hs
    rw [ofField.eq_def]
    dsimp only
    split
    · exact hfields hnames (fun g hg => ih g hg (hbelow g hg)) ho hroot hpath
    · rw [ofValues_eq_map]
      exact isBelow_map_field hroot fun c hc _ =>
        FieldChange.path_of_mem_ofValues hc ▸ Path.within_self _
  | leaves kind =>
    intro o name path old new ho _ hpath
    rw [ofField, ofSets_eq_sides]
    exact isBelow_of_mem_ofSides ho hpath fun _ _ _ _ h => absurd h List.not_mem_nil
  | objects typeName fields identity ih =>
    intro o name path old new ho hroot hpath
    rw [everyObject_objects] at hs
    obtain ⟨hnames, hbelow⟩ := everyObject_object.mp hs
    cases identity with
    | none =>
      rw [ofField, ofSets_eq_sides]
      exact isBelow_of_mem_ofSides ho hpath fun _ _ _ _ h => absurd h List.not_mem_nil
    | some identity =>
      rw [ofField_objects_eq_sides]
      refine isBelow_of_mem_ofSides ho hpath fun k fs gs f hf => ?_
      rcases List.mem_cons.mp hf with rfl | hf
      · exact .of_stem_member ho hpath
          ⟨Owner.isRoot_member _ _ _ _, Owner.stem_member ho hpath typeName k⟩ rfl
      · -- what is found on a member has the stem of the member
        have hmember := hfields hnames (fun g hg => ih g hg (hbelow g hg))
          (Owner.isSited_member o typeName path k)
          (fun h => absurd h (by rw [Owner.isRoot_member]; decide)) hpath f hf
        have hstem := hmember.below
        rw [if_neg (by rw [Owner.isRoot_member]; decide)] at hstem
        exact .of_stem_member ho hpath hmember.placed hstem
  | free =>
    intro o name path old new _ hroot _
    rw [ofField, ofFree_eq_map]
    exact isBelow_map_field hroot fun c hc hne => FieldChange.within_of_mem_ofFree hne hc

end Finding

/-! ### Comparisons -/

namespace Rules

open Finding

variable {rules : Rules} {old old' new new' : Entity} {top : String}

/-- What is found between two entities has its place. -/
theorem isBelow_of_mem_findings (hs : rules.shape.isAlphanumeric) {g : String × FieldShape}
    (hg : g ∈ rules.shape.fields) {a b : Option Node} :
    ∀ f ∈ ofField rules (.root rules.shape.typeName) g.1 (Path.child "" g.1) a b g.2,
      IsBelow (.root rules.shape.typeName) (.root rules.shape.typeName) (Path.child "" g.1) f := by
  obtain ⟨hnames, hfields⟩ := everyObject_object.mp hs
  refine isBelow_of_mem_ofField g.2 (hfields g hg) (Or.inl rfl) (fun _ => rfl) ?_
  exact notMem_of_alphanumeric hnames (List.mem_map_of_mem hg) (by decide)

theorem placed_of_mem_findings (hs : rules.shape.isAlphanumeric) :
    ∀ f ∈ rules.findings old new, Placed (.root rules.shape.typeName) f := by
  intro f hf
  rw [findings, ofFields_eq_flatMap] at hf
  obtain ⟨g, hg, hf⟩ := List.mem_flatMap.mp hf
  split at hf
  · exact (isBelow_of_mem_findings hs hg f hf).placed
  · exact absurd hf List.not_mem_nil

/-- Of entities that agree apart from one field the same is found elsewhere. -/
theorem filter_findings_congr (hs : rules.shape.isAlphanumeric) (htop : top ≠ "")
    (hold : ∀ f ∈ rules.shape.fields, f.1 ≠ top → old.root.get? f.1 = old'.root.get? f.1)
    (hnew : ∀ f ∈ rules.shape.fields, f.1 ≠ top → new.root.get? f.1 = new'.root.get? f.1) :
    (rules.findings old new).filter (elsewhere top)
      = (rules.findings old' new').filter (elsewhere top) := by
  rw [findings, findings, ofFields_eq_flatMap, ofFields_eq_flatMap, List.filter_flatMap,
    List.filter_flatMap]
  refine List.flatMap_congr fun g hg => ?_
  by_cases hname : g.1 = top
  · -- all that is found on the field itself is left out
    have hnone : ∀ a b : Option Node, (ofField rules (.root rules.shape.typeName) g.1
        (Path.child "" g.1) a b g.2).filter (elsewhere top) = [] := by
      intro a b
      refine List.filter_eq_nil_iff.mpr fun f hf hout => ?_
      have hbelow := (isBelow_of_mem_findings hs hg f hf).below
      rw [if_pos (Owner.isRoot_root _), Path.child_root, hname] at hbelow
      rw [elsewhere, hbelow htop] at hout
      exact absurd hout (by decide)
    split
    · rw [hnone, hnone]
    · rfl
  · rw [hold g hg hname, hnew g hg hname]

/-- **Fields are compared independently.**  Two comparisons whose snapshots agree apart from one
field of the root both succeed, and outside this field they report the same changes in the same
order. -/
theorem outside_diff_congr {s s' t t' : Option Json} (hreshape : rules.reshape? = none)
    (hs : rules.shape.isAlphanumeric) (htop : top ≠ "")
    (hold : Snapshot.AgreeApartFrom rules.shape top s s')
    (hnew : Snapshot.AgreeApartFrom rules.shape top t t')
    (hread : ∀ u ∈ [s, s', t, t'], ∃ e, Entity.ofSnapshot rules u = .ok e) :
    ∃ r r', rules.diff s t = .ok r ∧ rules.diff s' t' = .ok r'
      ∧ ChangeRecord.outside top r = ChangeRecord.outside top r' := by
  obtain ⟨old, hs₁⟩ := hread s (by simp)
  obtain ⟨old', hs₂⟩ := hread s' (by simp)
  obtain ⟨new, ht₁⟩ := hread t (by simp)
  obtain ⟨new', ht₂⟩ := hread t' (by simp)
  have hnames := nodup_of_alphanumeric (everyObject_object.mp hs).1
  refine ⟨_, _, diff_eq_ok.mpr ⟨old, new, hs₁, ht₁, rfl⟩,
    diff_eq_ok.mpr ⟨old', new', hs₂, ht₂, rfl⟩,
    ?_⟩
  have hfindings := filter_findings_congr hs htop
    (fun f hf hname => Entity.get?_ofSnapshot_congr hreshape hnames hf hs₁ hs₂ (hold f hf hname))
    (fun f hf hname => Entity.get?_ofSnapshot_congr hreshape hnames hf ht₁ ht₂ (hnew f hf hname))
  rw [Correlation.outside_record? rfl (placed_of_mem_findings hs), hfindings,
    ← Correlation.outside_record? rfl (placed_of_mem_findings hs)]

/-- An item with a barcode and a circulation note. -/
def noted (barcode note : String) : Json :=
  .obj [("barcode", .str barcode),
    ("circulationNotes", .arr [.obj [("id", .str "n"), ("note", .str note)]])]

theorem agreeApartFrom_noted (shape : Shape) (barcode note note' : String) :
    Snapshot.AgreeApartFrom shape "circulationNotes" (some (noted barcode note))
      (some (noted barcode note')) := by
  intro f _ hname
  have hget : ∀ a b c : Json, Table.get? [("barcode", a), ("circulationNotes", b)] f.1
      = Table.get? [("barcode", a), ("circulationNotes", c)] f.1 := by
    intro a b c
    rw [Table.get?_cons, Table.get?_cons, Table.get?_cons, Table.get?_cons,
      if_neg (Ne.symm hname), if_neg (Ne.symm hname)]
  exact hget _ _ _

theorem outside_diff_congr_noted : ∃ r r',
    (builtIn .item).diff (some (noted "1" "a")) (some (noted "2" "a")) = .ok r
      ∧ (builtIn .item).diff (some (noted "1" "a")) (some (noted "2" "b")) = .ok r'
      ∧ ChangeRecord.outside "circulationNotes" r = ChangeRecord.outside "circulationNotes" r' := by
  refine outside_diff_congr rfl (Shape.isAlphanumeric_of_isPlain (isPlain_builtIn .item))
    (by decide) (agreeApartFrom_noted _ "1" "a" "a") (agreeApartFrom_noted _ "2" "a" "b")
    fun u hu => ?_
  simp only [List.mem_cons, List.not_mem_nil, or_false] at hu
  rcases hu with rfl | rfl | rfl | rfl <;> exact ⟨_, rfl⟩

/-- Entities whose only field has an empty name.  What is below it has no dot in its path. -/
def nameless : Rules where
  family := .item
  shape := ⟨"Whole", [("", .object "Part" [("x", .leaf .string)])]⟩

def part (x : String) : Json := .obj [("", .obj [("x", .str x)])]

/-- A field without a name does not hold the changes below it. -/
theorem not_outside_diff_congr_nameless :
    nameless.reshape? = none ∧ nameless.shape.isAlphanumeric
      ∧ "" ∈ nameless.shape.fields.map Prod.fst
      ∧ Snapshot.AgreeApartFrom nameless.shape "" (some (part "1")) (some (part "2"))
      ∧ ∃ r r', nameless.diff (some (part "1")) (some (part "1")) = .ok r
        ∧ nameless.diff (some (part "1")) (some (part "2")) = .ok r'
        ∧ (ChangeRecord.outside "" r).fields.map (·.path) = []
        ∧ (ChangeRecord.outside "" r').fields.map (·.path) = ["x"] := by
  refine ⟨rfl, by decide, by decide, fun f hf hname => ?_, _, _, rfl, rfl, rfl, rfl⟩
  exact absurd (congrArg Prod.fst (List.mem_singleton.mp hf)) hname

end Rules

end SnapshotDiff
