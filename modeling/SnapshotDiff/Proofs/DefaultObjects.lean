import SnapshotDiff.Proofs.Entity.Blank
import SnapshotDiff.Proofs.Ignoring

/-!
# Default objects are told leaf by leaf

The entity of every snapshot has an object at the path of a default object, and at every step of the
way.  The comparison of two entities goes down this way: an object that it passes holds the next
one, so it is not empty, and the last one counts as present because its path is that of a default
object.  No change is told at a path on the way.

## Main results

* `Change.not_within_of_opened` — what is open on both sides is not told as a whole.
* `Rules.defaultObject_spec` — **a default object is there in every entity, whatever stands for an
  empty one, and is never told as a whole.**
-/

namespace SnapshotDiff

open FieldShape

namespace Node

/-- The first object on an open path counts as present if it is not the last one, or is a default
object. -/
theorem exists_presentObject?_of_opened {rules : Rules} {path name : String} {names : List String}
    {fs : Table Node} (h : Opened fs (name :: names))
    (hdefault : rules.defaultObjects.contains (Path.along path names)) :
    ∃ inner, Finding.presentObject? rules path (fs.get? name) = some inner ∧
      Opened inner names := by
  obtain ⟨inner, hget, hopen⟩ := h
  refine ⟨inner, ?_, hopen⟩
  rw [hget, presentObject?_object]
  cases names with
  | nil => rw [show rules.defaultObjects.contains path from hdefault, Bool.true_or, if_pos rfl]
  | cons next names =>
    have hempty : inner.isEmpty = false := by simpa using hopen.ne_nil (List.cons_ne_nil _ _)
    rw [hempty, Bool.not_false, Bool.or_true, if_pos rfl]

end Node

/-- **What is open on both sides is not told as a whole**, and neither is anything on the way, if
there is a default object at the end. -/
theorem Change.not_within_of_opened {rules : Rules} : ∀ {names : List String} {shape : Shape}
    {path : String} {old new : Table Node}, shape.isAlphanumeric →
      (shape.objectBelow? names).isSome → (∀ f ∈ shape.fields, Path.child path f.1 ≠ "") →
      Node.Opened old names → Node.Opened new names →
      rules.defaultObjects.contains (Path.along path names) →
        ∀ c ∈ ofFields rules path old new shape.fields,
          ¬Path.within (Path.along path names) c.path := by
  intro names
  induction names with
  | nil =>
    intro shape path old new hs _ hpath _ _ _ c hc hwithin
    obtain ⟨-, hfields⟩ := everyObject_object.mp hs
    rw [ofFields_eq_flatMap] at hc
    obtain ⟨f, hf, hc⟩ := List.mem_flatMap.mp hc
    split at hc
    · have hbelow := within_of_mem_ofField (hfields f hf) (hpath f hf) hc
      exact Path.not_within_child (hpath f hf) (Path.within_trans hwithin hbelow)
    · exact absurd hc List.not_mem_nil
  | cons name names ih =>
    intro shape path old new hs hbelow hpath hold hnew hdefault c hc hwithin
    obtain ⟨halpha, hfields⟩ := everyObject_object.mp hs
    obtain ⟨child, hmem, hbelow'⟩ := Node.exists_child_of_objectBelow? hbelow
    have hchild := hpath _ hmem
    rw [ofFields_eq_flatMap] at hc
    obtain ⟨f, hf, hc⟩ := List.mem_flatMap.mp hc
    split at hc
    · -- the change lies below one field only, which is the first one on the way
      have hfirst :=
        Path.within_trans hwithin (within_of_mem_ofField (hfields f hf) (hpath f hf) hc)
      obtain rfl := eq_of_within_fields halpha hf hmem hfirst (Path.within_along hchild names)
      obtain ⟨fs, hfs, hopen⟩ := Node.exists_presentObject?_of_opened hold hdefault
      obtain ⟨gs, hgs, hopen'⟩ := Node.exists_presentObject?_of_opened hnew hdefault
      rw [ofField.eq_def] at hc
      dsimp only at hc
      rw [hfs, hgs] at hc
      exact ih (hfields _ hmem) hbelow' (fun g _ => Path.child_ne_empty_of_ne hchild g.1) hopen
        hopen' hdefault c hc hwithin
    · exact absurd hc List.not_mem_nil

namespace Rules

variable {rules : Rules}

theorem hasDistinctNames_of_isAlphanumeric (hs : rules.shape.isAlphanumeric) :
    rules.shape.hasDistinctNames :=
  everyObject_mono (fun _ h => decide_eq_true (nodup_of_alphanumeric h)) hs

/-- Every entity has its default objects. -/
theorem opened_of_ofSnapshot {p : String} (hs : rules.shape.isAlphanumeric)
    (hp : p ∈ rules.defaultObjects) (hat : (rules.shape.objectAt? p).isSome) {s : Option Json}
    {e : Entity} (h : Entity.ofSnapshot rules s = .ok e) :
    Node.Opened e.root (Path.segments p) := by
  obtain ⟨root, hroot, rfl⟩ := Entity.ofSnapshot_eq_ok.mp h
  have hnames := hasDistinctNames_of_isAlphanumeric hs
  exact (Entity.settled_defaults rules.defaultObjects hnames
    (Entity.settled_readRoot hnames hroot)).1 p hp hat

/-- **Default objects are told leaf by leaf.**  Let a path of the rules lead to a default object.
Every entity has an object there, and at every step of the way.  Whether a snapshot has nothing
there, `null`, or an object without declared fields does not matter, as long as it passes the check
of the family.  And no record tells of a change at the path or on the way, unless a field of the
root has the empty name, so that paths do not begin with it. -/
theorem defaultObject_spec {p : String} {found : Shape} (hs : rules.shape.isAlphanumeric)
    (hp : p ∈ rules.defaultObjects) (hat : rules.shape.objectAt? p = some found) :
    (∀ s e, Entity.ofSnapshot rules s = .ok e → Node.Opened e.root (Path.segments p))
      ∧ (∀ raw raw' ms ns e, rules.reshaped raw = .ok ms → rules.reshaped raw' = .ok ns →
          Snapshot.AgreeOutside found (Path.segments p) ms ns →
          Entity.checkFamily rules ns = .ok () →
          Entity.ofSnapshot rules (some (.obj raw)) = .ok e →
            Entity.ofSnapshot rules (some (.obj raw')) = .ok e)
      ∧ ((∀ f ∈ rules.shape.fields, f.1 ≠ "") → ∀ s t r, rules.diff s t = .ok (some r) →
          ∀ c ∈ r.fields, ¬Path.within p c.path) := by
  have hsome : (rules.shape.objectAt? p).isSome := Option.isSome_iff_exists.mpr ⟨found, hat⟩
  have hopen : ∀ {s e}, Entity.ofSnapshot rules s = .ok e →
      Node.Opened e.root (Path.segments p) := opened_of_ofSnapshot hs hp hsome
  refine ⟨fun s e => hopen, fun raw raw' ms ns e hms hns h hcheck he => ?_, ?_⟩
  · exact Entity.ofSnapshot_of_agreeOutside (hasDistinctNames_of_isAlphanumeric hs) hp hat hms hns h
      hcheck he
  · intro hnames s t r hr c hc
    have haddressable : rules.shape.isAddressable := by
      rw [Shape.isAddressable, hs, Bool.true_and, List.all_eq_true]
      exact fun f hf => decide_eq_true (hnames f hf)
    obtain ⟨old, new, hold, hnew, hrecord⟩ := (diff_eq_ok_iff haddressable).mp hr
    -- the path begins with a declared field, so it is what its names lead to
    have hpath : Path.along "" (Path.segments p) = p := by
      cases hsegments : Path.segments p with
      | nil => exact absurd (List.map_eq_nil_iff.mp hsegments) (Text.cut_ne_nil _ _)
      | cons name names =>
        rw [Shape.objectAt?, hsegments] at hsome
        obtain ⟨child, hmem, -⟩ := Node.exists_child_of_objectBelow? hsome
        rw [← hsegments]
        exact Path.along_segments hsegments (hnames _ hmem)
    have hdefault : rules.defaultObjects.contains (Path.along "" (Path.segments p)) := by
      rw [hpath]
      exact List.contains_iff_mem.mpr hp
    have hnone := Change.not_within_of_opened hs hsome
      (Shape.child_ne_empty_of_isAddressable haddressable) (hopen hold) (hopen hnew) hdefault
    rw [hpath] at hnone
    rw [onePass, Change.record?] at hrecord
    split at hrecord
    · simp at hrecord
    · obtain rfl := Option.some.inj hrecord
      exact hnone _ (Change.mem_filterMap_field?.mp hc)

/-- A parcel with a note, and with what is given of its sender. -/
def sentBy (sender : Table Json) : Table Json := ("note", .str "a") :: sender

/-- The entity of such a parcel, if nothing is known of the sender. -/
def anonymous : Entity where
  family := .item
  root := [("note", .leaf (.str "a") "\"a\""), ("sender", .object [("address", .object [])])]

/-- The change that gives a sender an address. -/
def addressed : ChangeRecord where
  fields := [⟨.added, "city", "sender.address.city", none, some (.str "x")⟩]
  collections := []

/-- The sender of a parcel need not be there, and is told of by its city. -/
theorem defaultObject_spec_parcel :
    Entity.ofSnapshot Entity.parcelRules (some (.obj (sentBy []))) = .ok anonymous
      ∧ Node.Opened anonymous.root ["sender", "address"]
      ∧ Entity.ofSnapshot Entity.parcelRules
        (some (.obj (sentBy [("sender", .obj [("address", .obj [("city", .null)])])])))
          = .ok anonymous
      ∧ Entity.parcelRules.diff none
        (some (.obj [("sender", .obj [("address", .obj [("city", .str "x")])])]))
          = .ok (some addressed)
      ∧ ∀ c ∈ addressed.fields, ¬Path.within "sender.address" c.path := by
  have hat : Entity.parcelRules.shape.objectAt? "sender.address"
      = some ⟨"Address", [("city", .leaf .string)]⟩ := rfl
  obtain ⟨hopen, hblank, htold⟩ := defaultObject_spec (by decide) (by decide) hat
  have hsegments : Path.segments "sender.address" = ["sender", "address"] := by decide
  rw [hsegments] at hopen hblank
  have hread : Entity.ofSnapshot Entity.parcelRules (some (.obj (sentBy []))) = .ok anonymous := rfl
  have hold : Entity.ofSnapshot Entity.parcelRules none
      = .ok ⟨.item, [("sender", .object [("address", .object [])])]⟩ := rfl
  have hnew : Entity.ofSnapshot Entity.parcelRules
      (some (.obj [("sender", .obj [("address", .obj [("city", .str "x")])])]))
        = .ok ⟨.item, [("sender", .object [("address",
          .object [("city", .leaf (.str "x") "\"x\"")])])]⟩ := rfl
  have hdiff := (diff_eq_ok_iff (by decide)).mpr ⟨_, _, hold, hnew,
    show some addressed = Entity.parcelRules.onePass _ _ from rfl⟩
  refine ⟨hread, hopen _ _ hread, ?_, hdiff, htold (by decide) _ _ _ hdiff⟩
  refine hblank _ _ _ _ _ rfl rfl ⟨fun key hkey => ?_, [], _, rfl, rfl, fun key hkey => ?_, [], _,
    rfl, rfl, ?_, ?_⟩ rfl hread
  · rw [sentBy, sentBy]
    simp [Ne.symm hkey]
  · simp [Ne.symm hkey]
  · simp [Shape.IsBlank, Node.Holds]
  · simp [Shape.IsBlank, Node.Holds]

/-- Entities with a field without a name, and a default object that has the name of what is in this
field. -/
def nestling : Rules where
  family := .item
  shape := ⟨"Nest", [("", .object "Inner" [("p", .leaf .string)]),
    ("p", .object "Outer" [("x", .leaf .string)])]⟩
  defaultObjects := ["p"]

/-- The change of what is in the field without a name. -/
def nestled : ChangeRecord where
  fields := [⟨.modified, "p", "p", some (.str "1"), some (.str "2")⟩]
  collections := []

/-- What is below a field without a name has a path like that of a field of the root. -/
theorem told_at_default_path : nestling.shape.isAlphanumeric
    ∧ "p" ∈ nestling.defaultObjects ∧ (nestling.shape.objectAt? "p").isSome
    ∧ nestling.diff (some (.obj [("", .obj [("p", .str "1")])]))
        (some (.obj [("", .obj [("p", .str "2")])])) = .ok (some nestled)
    ∧ ∃ c ∈ nestled.fields, c.path = "p" :=
  ⟨by decide, by decide, by decide, rfl, _, List.mem_cons_self, rfl⟩

end Rules

end SnapshotDiff
