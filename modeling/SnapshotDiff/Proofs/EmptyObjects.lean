import SnapshotDiff.Proofs.Comparison
import SnapshotDiff.Proofs.Correlation.Valueless
import SnapshotDiff.Proofs.Entity.Blank
import SnapshotDiff.Proofs.Node.Members

/-!
# Objects that hold nothing

Unless it is a default object, an object that holds nothing is compared as if it were not there.
Whether it holds nothing is a matter of its own fields: an object with an empty object in it does
hold something.  So an empty object can be taken out of a snapshot without another effect than on
the values that are told if it lies in the root, or in an object that is left with something.  If it
was the only thing in an object further down, that object ceases to be there, and this is told.

## Main definitions

* `Node.HoldsBeside` — the object at the end of a path holds something besides a field.
* `Finding.FieldsAlike`, `Finding.FieldAlike` — what is found on either side of any third is the
  same but for values.
* `Rules.Alike` — two comparisons succeed with the same record but for values.

## Main results

* `Finding.fieldsAlike_of_agreeTo` — tables that agree but for an empty object are alike.
* `Finding.exists_change_of_emptied` — an object that is left with nothing is told.
* `Rules.emptyObject_spec` — **what becomes of a comparison without an empty object.**
-/

namespace SnapshotDiff

open FieldShape
open Finding (presentObject? ofFields ofField ofValues)

variable {rules : Rules} {o : Owner} {name path typeName : String}
  {fields : List (String × FieldShape)}

namespace Node

variable {fs gs inner : Table Node}

/-- The object that the names lead to holds something besides the field. -/
def HoldsBeside (name : String) : (parents : List String) → Table Node → Prop
  | [], fs => ∃ key, key ≠ name ∧ (fs.get? key).isSome
  | parent :: parents, fs =>
    ∃ inner, fs.get? parent = some (.object inner) ∧ HoldsBeside name parents inner

theorem HoldsBeside.ne_nil {parents : List String} (h : HoldsBeside name parents fs) :
    fs ≠ [] := by
  rintro rfl
  cases parents with
  | nil =>
    obtain ⟨key, -, hkey⟩ := h
    simp at hkey
  | cons parent parents =>
    obtain ⟨inner, hget, -⟩ := h
    simp at hget

/-- The object is present unless it is empty. -/
theorem presentObject?_of_objectIn? (hdefault : rules.defaultObjects = []) (path : String)
    (h : objectIn? fs name = some inner) :
    presentObject? rules path (fs.get? name) = if inner = [] then none else some inner := by
  cases hget : fs.get? name with
  | none =>
    obtain rfl := eq_nil_of_objectIn? h hget
    rfl
  | some n =>
    obtain rfl := eq_object_of_objectIn? h hget
    rw [presentObject?_object, hdefault]
    cases inner <;> rfl

/-- What is beside the field is the same in tables that agree but for the field. -/
theorem HoldsBeside.of_agreeTo {parents : List String} : ∀ {fs gs : Table Node},
    AgreeTo (parents ++ [name]) fs gs → HoldsBeside name parents fs →
      HoldsBeside name parents gs := by
  induction parents with
  | nil =>
    rintro fs gs ⟨hother, -⟩ ⟨key, hne, hkey⟩
    exact ⟨key, hne, hother key hne ▸ hkey⟩
  | cons parent parents ih =>
    rintro fs gs ⟨-, fs', gs', hfs, hgs, hagree⟩ ⟨inner, hget, hbeside⟩
    obtain rfl := Option.some.inj ((objectIn?_of_get? hget).symm.trans hfs)
    have hbeside' := ih hagree hbeside
    exact ⟨gs', get?_of_objectIn? hgs hbeside'.ne_nil, hbeside'⟩

end Node

open Node (AgreeTo HoldsBeside Opened)

namespace Finding

variable {fs gs : Table Node} {n m : Option Node}

/-! ### What is found apart from values -/

/-- On either side of any third object the same is found on the fields, but for values. -/
def FieldsAlike (rules : Rules) (o : Owner) (path : String) (fields : List (String × FieldShape))
    (fs gs : Table Node) : Prop :=
  ∀ hs, (ofFields rules o path hs fs fields).map valueless
      = (ofFields rules o path hs gs fields).map valueless
    ∧ (ofFields rules o path fs hs fields).map valueless
      = (ofFields rules o path gs hs fields).map valueless

/-- The same for one field. -/
def FieldAlike (rules : Rules) (o : Owner) (name path : String) (s : FieldShape)
    (n m : Option Node) : Prop :=
  ∀ k, (ofField rules o name path k n s).map valueless
      = (ofField rules o name path k m s).map valueless
    ∧ (ofField rules o name path n k s).map valueless
      = (ofField rules o name path m k s).map valueless

/-- Without its values a finding shows only which of them are there. -/
theorem map_valueless_ofValues {a b c d : Option Json} (hold : a.isSome = c.isSome)
    (hnew : b.isSome = d.isSome) (equal : Bool) :
    (ofValues o name path a b equal).map valueless
      = (ofValues o name path c d equal).map valueless := by
  simp only [ofValues, hold, hnew]
  split <;> rfl

theorem fieldsAlike_of_fields (h : ∀ f ∈ fields, FieldAlike rules o f.1 (Path.child path f.1) f.2
    (fs.get? f.1) (gs.get? f.1)) : FieldsAlike rules o path fields fs gs := by
  intro hs
  simp only [ofFields_eq_flatMap, List.map_flatMap]
  refine ⟨List.flatMap_congr fun f hf => ?_, List.flatMap_congr fun f hf => ?_⟩
  · split
    · exact (h f hf _).1
    · rfl
  · split
    · exact (h f hf _).2
    · rfl

/-- Of the values of an object only the one that is present is looked at. -/
theorem fieldAlike_object_of_eq (h : presentObject? rules path n = presentObject? rules path m) :
    FieldAlike rules o name path (.object typeName fields) n m := by
  intro k
  simp only [ofField, h, and_self]

/-- Objects that are both present are alike if their fields are. -/
theorem fieldAlike_object (hn : presentObject? rules path n = some fs)
    (hm : presentObject? rules path m = some gs) (h : FieldsAlike rules o path fields fs gs) :
    FieldAlike rules o name path (.object typeName fields) n m := by
  intro k
  simp only [ofField, hn, hm]
  cases presentObject? rules path k with
  | none => exact ⟨map_valueless_ofValues rfl rfl false, map_valueless_ofValues rfl rfl false⟩
  | some hs => exact h hs

/-- **Tables that agree but for an object at the end of a path are alike**, if the object that this
one lies in is the root or holds something besides. -/
theorem fieldsAlike_of_agreeTo (hdefault : rules.defaultObjects = []) {parents : List String} :
    ∀ {shape : Shape} {fs gs : Table Node} {path : String}, shape.hasDistinctNames →
      (shape.objectBelow? (parents ++ [name])).isSome → AgreeTo (parents ++ [name]) fs gs →
      parents = [] ∨ HoldsBeside name parents fs →
        FieldsAlike rules o path shape.fields fs gs := by
  induction parents with
  | nil =>
    rintro shape fs gs path hs hbelow ⟨hother, fs', _, hfs, hgs, rfl⟩ -
    have hnodup := of_decide_eq_true (everyObject_object.mp hs).1
    obtain ⟨child, hmem, -⟩ := Node.exists_child_of_objectBelow? hbelow
    refine fieldsAlike_of_fields fun f hf => ?_
    obtain ⟨key, s⟩ := f
    by_cases hkey : key = name
    · subst hkey
      obtain rfl := List.eq_of_nodup_keys hnodup hf hmem
      apply fieldAlike_object_of_eq
      rw [Node.presentObject?_of_objectIn? hdefault _ hfs,
        Node.presentObject?_of_objectIn? hdefault _ hgs]
    · rw [hother key hkey]
      exact fun k => ⟨rfl, rfl⟩
  | cons parent parents ih =>
    rintro shape fs gs path hs hbelow ⟨hother, fs', gs', hfs, hgs, hagree⟩ hor
    obtain ⟨inner, hget, hbeside⟩ := hor.resolve_left (List.cons_ne_nil _ _)
    obtain rfl := Option.some.inj ((Node.objectIn?_of_get? hget).symm.trans hfs)
    obtain ⟨hnames, hfields⟩ := everyObject_object.mp hs
    obtain ⟨child, hmem, hbelow'⟩ := Node.exists_child_of_objectBelow? hbelow
    refine fieldsAlike_of_fields fun f hf => ?_
    obtain ⟨key, s⟩ := f
    by_cases hkey : key = parent
    · subst hkey
      obtain rfl := List.eq_of_nodup_keys (of_decide_eq_true hnames) hf hmem
      -- with something beside the field neither of the objects on the path is empty
      have hfs' := Node.presentObject?_of_objectIn? hdefault (Path.child path key) hfs
      have hgs' := Node.presentObject?_of_objectIn? hdefault (Path.child path key) hgs
      rw [if_neg hbeside.ne_nil] at hfs'
      rw [if_neg (hbeside.of_agreeTo hagree).ne_nil] at hgs'
      exact fieldAlike_object hfs' hgs' (ih (hfields _ hmem) hbelow' hagree (Or.inr hbeside))
    · rw [hother key hkey]
      exact fun k => ⟨rfl, rfl⟩

/-! ### What is told of an object that is left with nothing -/

/-- **An object that is left with nothing is told**: it held an empty object only, which is not
there any more. -/
theorem exists_change_of_emptied (hdefault : rules.defaultObjects = [])
    (hreport : ∀ p, rules.reportable p) {parents : List String} :
    ∀ {shape : Shape} {fs gs : Table Node} {path : String}, parents ≠ [] →
      (shape.objectBelow? (parents ++ [name])).isSome → AgreeTo (parents ++ [name]) fs gs →
      ¬HoldsBeside name parents fs → Opened fs (parents ++ [name]) →
      ¬Opened gs (parents ++ [name]) →
        ∃ c : FieldChange,
          c.kind.isChange ∧ field o c ∈ ofFields rules o path fs gs shape.fields := by
  induction parents with
  | nil => exact fun h => absurd rfl h
  | cons parent parents ih =>
    rintro shape fs gs path - hbelow ⟨-, fs', gs', hfs, hgs, hagree⟩ hbeside ⟨inner, hget, hopen⟩
      hclosed
    obtain rfl := Option.some.inj ((Node.objectIn?_of_get? hget).symm.trans hfs)
    obtain ⟨child, hmem, hbelow'⟩ := Node.exists_child_of_objectBelow? hbelow
    have hfs' := Node.presentObject?_of_objectIn? hdefault (Path.child path parent) hfs
    have hgs' := Node.presentObject?_of_objectIn? hdefault (Path.child path parent) hgs
    rw [if_neg (hopen.ne_nil (by simp))] at hfs'
    by_cases hempty : gs' = []
    · -- the first object that is left with nothing is the one that is told
      rw [if_pos hempty] at hgs'
      refine ⟨⟨.removed, parent, Path.child path parent, some (Node.object inner).json, none⟩, rfl,
        mem_ofFields hmem (hreport _) ?_⟩
      simp only [ofField, hfs', hgs']
      exact List.mem_singleton_self _
    · rw [if_neg hempty] at hgs'
      have hclosed' : ¬Opened gs' (parents ++ [name]) := fun h =>
        hclosed ⟨gs', Node.get?_of_objectIn? hgs hempty, h⟩
      have hbeside' : ¬HoldsBeside name parents inner := fun h => hbeside ⟨inner, hget, h⟩
      have hparents : parents ≠ [] := by
        rintro rfl
        obtain ⟨hother, -, gs'', -, hgs'', -⟩ := hagree
        obtain ⟨⟨key, n⟩, rest, rfl⟩ := List.exists_cons_of_ne_nil hempty
        have hn : Table.get? ((key, n) :: rest) key = some n := by simp
        by_cases hkey : key = name
        · subst hkey
          obtain rfl := Node.eq_object_of_objectIn? hgs'' hn
          exact hclosed' ⟨gs'', hn, trivial⟩
        · exact hbeside' ⟨key, hkey, by rw [hother key hkey, hn]; rfl⟩
      obtain ⟨c, hc, hfound⟩ := ih hparents hbelow' hagree hbeside' hopen hclosed'
      refine ⟨c, hc, mem_ofFields hmem (hreport _) ?_⟩
      simp only [ofField, hfs', hgs']
      exact hfound

end Finding

/-! ### Comparisons -/

namespace Rules

open Snapshot (AgreeOutside)

/-- Both comparisons succeed, with the same record but for the values of fields: there is none, or
it tells of the same changes of fields in the same order, and of the same collections. -/
def Alike (d d' : Except DiffError (Option ChangeRecord)) : Prop :=
  ∃ r r', d = .ok r ∧ d' = .ok r' ∧ r.map ChangeRecord.valueless = r'.map ChangeRecord.valueless

/-- Entities with alike fields are compared alike. -/
theorem alike_of_fieldsAlike {s s' t : Option Json} {e e' u : Entity}
    (he : Entity.ofSnapshot rules s = .ok e) (he' : Entity.ofSnapshot rules s' = .ok e')
    (hu : Entity.ofSnapshot rules t = .ok u)
    (h : Finding.FieldsAlike rules (.root rules.shape.typeName) "" rules.shape.fields
      e.root e'.root) :
    Alike (rules.diff t s) (rules.diff t s') ∧ Alike (rules.diff s t) (rules.diff s' t) := by
  obtain ⟨hright, hleft⟩ := h u.root
  refine ⟨⟨_, _, diff_eq_ok.mpr ⟨u, e, hu, he, rfl⟩, diff_eq_ok.mpr ⟨u, e', hu, he', rfl⟩, ?_⟩,
    ⟨_, _, diff_eq_ok.mpr ⟨e, u, he, hu, rfl⟩, diff_eq_ok.mpr ⟨e', u, he', hu, rfl⟩, ?_⟩⟩
  · rw [← Correlation.record?_map_valueless, ← Correlation.record?_map_valueless, findings,
      findings, hright]
  · rw [← Correlation.record?_map_valueless, ← Correlation.record?_map_valueless, findings,
      findings, hleft]

/-- **What becomes of a comparison without an empty object.**  Two snapshots, in the layout of the
shape, agree outside of a path of nested objects, at the end of which both have nothing, `null`, or
an object without any declared field; the first is read, and there are no default objects.  Then the
second is read as well, unless the check of the family refuses it.  If the object lies in the root,
or in an object that holds something besides, either snapshot can stand for the other on both sides
of any comparison, which then differs at most in the values that are told of fields.  If it was the
only thing in an object further down and is not there any more, the two snapshots differ, as far as
all paths are reported. -/
theorem emptyObject_spec {found : Shape} {raw raw' ms ns : Table Json} {e : Entity}
    {parents : List String} (hs : rules.shape.hasDistinctNames)
    (hdefault : rules.defaultObjects = [])
    (hfound : rules.shape.objectBelow? (parents ++ [name]) = some found)
    (hms : rules.reshaped raw = .ok ms) (hns : rules.reshaped raw' = .ok ns)
    (h : AgreeOutside found (parents ++ [name]) ms ns)
    (he : Entity.ofSnapshot rules (some (.obj raw)) = .ok e) :
    (∀ err, Entity.checkFamily rules ns = .error err →
      Entity.ofSnapshot rules (some (.obj raw')) = .error err)
    ∧ (Entity.checkFamily rules ns = .ok () → ∃ e',
      Entity.ofSnapshot rules (some (.obj raw')) = .ok e'
      ∧ (parents = [] ∨ HoldsBeside name parents e.root →
        ∀ t u, Entity.ofSnapshot rules t = .ok u →
          Alike (rules.diff t (some (.obj raw))) (rules.diff t (some (.obj raw')))
          ∧ Alike (rules.diff (some (.obj raw)) t) (rules.diff (some (.obj raw')) t))
      ∧ (parents ≠ [] → ¬HoldsBeside name parents e.root → Opened e.root (parents ++ [name]) →
        ¬Opened e'.root (parents ++ [name]) → (∀ p, rules.reportable p) →
          ∃ r, rules.diff (some (.obj raw)) (some (.obj raw')) = .ok (some r))) := by
  obtain ⟨root, hroot, heq⟩ := Entity.ofSnapshot_eq_ok.mp he
  rw [hdefault, List.foldl_nil] at heq
  subst heq
  rcases Entity.readRoot_eq_ok.mp hroot with ⟨habsent, -⟩ | ⟨raw, out, hraw, hout, -, hread⟩
  · simp at habsent
  obtain rfl := Json.obj.inj (Option.some.inj hraw)
  obtain rfl := Except.ok.inj (hms.symm.trans hout)
  obtain ⟨root', hread', hagree⟩ := Node.exists_readFields_of_agreeOutside hs hfound h hread
  have hbelow := Option.isSome_iff_exists.mpr ⟨found, hfound⟩
  refine ⟨fun err herr => ?_, fun hcheck => ?_⟩
  · rw [Entity.ofSnapshot, Entity.readRoot, hns]
    simp only [bind, Except.bind, herr]
  have hroot' := Entity.readRoot_eq_ok.mpr (Or.inr ⟨raw', ns, rfl, hns, hcheck, hread'⟩)
  have he' : Entity.ofSnapshot rules (some (.obj raw')) = .ok ⟨rules.family, root'⟩ :=
    Entity.ofSnapshot_eq_ok.mpr ⟨root', hroot', by rw [hdefault, List.foldl_nil]⟩
  refine ⟨_, he', fun hbeside t u hu => ?_, fun hparents hbeside hopen hclosed hreport => ?_⟩
  · exact alike_of_fieldsAlike he he' hu
      (Finding.fieldsAlike_of_agreeTo hdefault hs hbelow hagree hbeside)
  · obtain ⟨c, hc, hfound⟩ := Finding.exists_change_of_emptied hdefault hreport hparents hbelow
      hagree hbeside hopen hclosed
    obtain ⟨r, hr, -⟩ := Correlation.exists_record?_of_mem (Owner.isRoot_root _) hc hfound
    exact ⟨r, diff_eq_ok.mpr ⟨_, _, he, he', hr.symm⟩⟩

/-- Books with their publishers. -/
def book : Rules where
  family := .item
  shape := ⟨"Book", [("publisher", .object "Publisher" [("name", .leaf .string),
    ("address", .object "Address" [("city", .leaf .string)])])]⟩

/-- A book of which something is known of the publisher. -/
def publishedBy (publisher : Table Json) : Table Json := [("publisher", .obj publisher)]

/-- The change that gives a book a publisher of whom only an empty address is known. -/
def published : ChangeRecord where
  fields := [⟨.added, "publisher", "publisher", none, some (.obj [("address", .obj [])])⟩]
  collections := []

/-- An empty address beside the name of a publisher is as good as none.  Of a publisher without a
name it is all there is, and it makes the book one that has a publisher. -/
theorem emptyObject_spec_book :
    Alike (book.diff none (some (.obj (publishedBy [("address", .obj []), ("name", .str "a")]))))
      (book.diff none (some (.obj (publishedBy [("name", .str "a")]))))
    ∧ (∃ r, book.diff (some (.obj (publishedBy [("address", .obj [])])))
      (some (.obj (publishedBy []))) = .ok (some r))
    ∧ book.diff none (some (.obj (publishedBy [("address", .obj [])]))) = .ok (some published)
    ∧ book.diff none (some (.obj (publishedBy []))) = .ok none := by
  have hagree : ∀ publisher : Table Json, publisher.get? "address" = none → AgreeOutside
      ⟨"Address", [("city", .leaf .string)]⟩ (["publisher"] ++ ["address"])
      (publishedBy (("address", .obj []) :: publisher)) (publishedBy publisher) := by
    intro publisher hnone
    refine ⟨fun key hkey => ?_, _, _, rfl, rfl, fun key hkey => ?_, [], [], rfl, ?_, ?_, ?_⟩
    · simp [publishedBy, Ne.symm hkey]
    · simp [Ne.symm hkey]
    · rw [Snapshot.objectIn?, hnone]
    · simp [Shape.IsBlank, Node.Holds]
    · simp [Shape.IsBlank, Node.Holds]
  have hdistinct : book.shape.hasDistinctNames := by decide
  obtain ⟨-, hnamed⟩ := emptyObject_spec hdistinct rfl rfl rfl rfl
    (hagree [("name", .str "a")] rfl) (e := ⟨.item, [("publisher", .object
      [("address", .object []), ("name", .leaf (.str "a") "\"a\"")])]⟩) rfl
  obtain ⟨-, hunnamed⟩ := emptyObject_spec hdistinct rfl rfl rfl rfl
    (hagree [] rfl) (e := ⟨.item, [("publisher", .object [("address", .object [])])]⟩) rfl
  obtain ⟨e, -, halike, -⟩ := hnamed rfl
  obtain ⟨e', he', -, hdiffer⟩ := hunnamed rfl
  obtain rfl : (⟨.item, [("publisher", .object [])]⟩ : Entity) = e' := Except.ok.inj he'
  refine ⟨(halike (Or.inr ⟨_, rfl, "name", by decide, rfl⟩) none _ rfl).1,
    hdiffer (by decide) ?_ ⟨_, rfl, _, rfl, trivial⟩ ?_ fun _ => rfl, rfl, rfl⟩
  · rintro ⟨inner, hinner, key, hkey, hsome⟩
    obtain rfl : [("address", .object [])] = inner := Node.object.inj (Option.some.inj hinner)
    simp [Ne.symm hkey] at hsome
  · rintro ⟨inner, hinner, below, hbelow, -⟩
    obtain rfl : [] = inner := Node.object.inj (Option.some.inj hinner)
    simp at hbelow

end Rules

end SnapshotDiff
