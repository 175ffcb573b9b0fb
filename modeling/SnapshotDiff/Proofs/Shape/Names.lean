import Mathlib.Data.List.Nodup
import SnapshotDiff.Proofs.Json.Delimited
import SnapshotDiff.Proofs.Path
import SnapshotDiff.Shape

/-!
# The names that a shape declares

What is required of the names of the fields of every object in a shape, at any depth, and the
induction over shapes that follows the fields of their objects.

## Main definitions

* `FieldShape.everyObject` — the names of every object in a shape have a property.
* `Shape.isAlphanumeric` — names are distinct and of ASCII letters and digits.
* `Shape.isPlain` — moreover, no name is empty.
* `Shape.isAddressable` — only names below the root may be empty.
* `FieldShape.element?`, `FieldShape.identity?` — what the members of a collection are.

## Main results

* `FieldShape.fieldInduction` — what passes from the fields of objects to the objects holds of
  every shape.
* `eq_of_within_fields` — a path lies below one declared field only.
-/

namespace SnapshotDiff

namespace FieldShape

mutual

/-- The names of the fields of every object in the shape have the property `p`. -/
def everyObject (p : List String → Bool) : FieldShape → Bool
  | object _ fields | objects _ fields _ => p (fields.map Prod.fst) && everyField p fields
  | leaf _ | leaves _ | free => true

/-- The shapes of the fields do so. -/
def everyField (p : List String → Bool) : List (String × FieldShape) → Bool
  | [] => true
  | (_, s) :: fields => everyObject p s && everyField p fields

end

theorem everyField_iff {p : List String → Bool} {fields : List (String × FieldShape)} :
    everyField p fields ↔ ∀ f ∈ fields, everyObject p f.2 := by
  induction fields with
  | nil => simp [everyField]
  | cons f fields ih => simp [everyField, ih]

/-- An object in order has names in order, and fields whose shapes are. -/
theorem everyObject_object {p : List String → Bool} {typeName : String}
    {fields : List (String × FieldShape)} :
    everyObject p (object typeName fields)
      ↔ p (fields.map Prod.fst) ∧ ∀ f ∈ fields, everyObject p f.2 := by
  rw [everyObject, Bool.and_eq_true, everyField_iff]

theorem everyObject_objects {p : List String → Bool} {typeName : String}
    {fields : List (String × FieldShape)} {identity : Option String} :
    everyObject p (objects typeName fields identity) = everyObject p (object typeName fields) := by
  rw [everyObject, everyObject]

/-- Induction along the fields of objects. -/
@[elab_as_elim]
theorem fieldInduction {P : FieldShape → Prop} (leaf : ∀ kind, P (leaf kind))
    (object : ∀ typeName fields, (∀ f ∈ fields, P f.2) → P (object typeName fields))
    (leaves : ∀ kind, P (leaves kind))
    (objects : ∀ typeName fields identity, (∀ f ∈ fields, P f.2) →
      P (objects typeName fields identity))
    (free : P free) : ∀ s, P s
  | .leaf kind => leaf kind
  | .object typeName fields =>
    object typeName fields (fieldsInduction fields)
  | .leaves kind => leaves kind
  | .objects typeName fields identity =>
    objects typeName fields identity (fieldsInduction fields)
  | .free => free
where
  fieldsInduction : ∀ fields : List (String × FieldShape), ∀ f ∈ fields, P f.2
    | [], _, hf => absurd hf List.not_mem_nil
    | (_, s) :: fields, f, hf => by
      rcases List.mem_cons.mp hf with rfl | hf
      · exact fieldInduction leaf object leaves objects free s
      · exact fieldsInduction fields f hf

/-- What one property of names implies for another passes to shapes. -/
theorem everyObject_mono {p q : List String → Bool} (hpq : ∀ names, p names → q names)
    {s : FieldShape} (h : everyObject p s) : everyObject q s := by
  induction s using fieldInduction with
  | leaf | leaves | free => rfl
  | object typeName fields ih =>
    rw [everyObject_object] at h ⊢
    exact ⟨hpq _ h.1, fun f hf => ih f hf (h.2 f hf)⟩
  | objects typeName fields identity ih =>
    rw [everyObject_objects, everyObject_object] at h ⊢
    exact ⟨hpq _ h.1, fun f hf => ih f hf (h.2 f hf)⟩

/-! ### Collections -/

/-- What is declared for the members of a collection. -/
def element? : FieldShape → Option FieldShape
  | leaves kind => some (leaf kind)
  | objects typeName fields _ => some (object typeName fields)
  | _ => none

/-- The field by which the members of a collection are told apart, if there is one. -/
def identity? : FieldShape → Option String
  | objects _ _ identity => identity
  | _ => none

/-- Members that are told apart by a field are objects. -/
theorem exists_object_of_identity {s element : FieldShape} {identity : String}
    (helement : s.element? = some element) (hidentity : identity ∈ s.identity?) :
    ∃ typeName fields, element = object typeName fields := by
  cases s with
  | objects typeName fields _ => exact ⟨typeName, fields, (Option.some.inj helement).symm⟩
  | _ => simp [identity?] at hidentity

/-- The names in the members of a collection are in order if those in the collection are. -/
theorem everyObject_element {p : List String → Bool} {s element : FieldShape}
    (hs : s.everyObject p) (helement : s.element? = some element) : element.everyObject p := by
  cases s with
  | leaves kind =>
    obtain rfl := Option.some.inj helement
    rfl
  | objects typeName fields identity =>
    obtain rfl := Option.some.inj helement
    rwa [everyObject_objects] at hs
  | _ => simp [element?] at helement

end FieldShape

/-! ### Letters and digits -/

/-- The names are distinct and of ASCII letters and digits. -/
def alphanumeric (names : List String) : Bool :=
  decide names.Nodup && names.all fun name => name.toList.all Char.isAlphanum

/-- The names are distinct, of ASCII letters and digits, and not empty. -/
def plainNames (names : List String) : Bool := alphanumeric names && names.all (· ≠ "")

theorem alphanumeric_of_plainNames {names : List String} (h : plainNames names) :
    alphanumeric names := by
  rw [plainNames, Bool.and_eq_true] at h
  exact h.1

theorem nodup_of_alphanumeric {names : List String} (h : alphanumeric names) : names.Nodup := by
  rw [alphanumeric, Bool.and_eq_true] at h
  exact of_decide_eq_true h.1

/-- A letter or digit is none of the marks that keys and paths are made with. -/
theorem notMem_of_alphanumeric {names : List String} (h : alphanumeric names) {name : String}
    (hn : name ∈ names) {c : Char} (hc : c.isAlphanum = false) : c ∉ name.toList := by
  rw [alphanumeric, Bool.and_eq_true, List.all_eq_true] at h
  intro hmem
  have hall := List.all_eq_true.mp (h.2 name hn) c hmem
  rw [hc] at hall
  exact absurd hall (by decide)

/-- A path lies below one declared field only, since no name has a dot in it. -/
theorem eq_of_within_fields {fields : List (String × FieldShape)}
    (halpha : alphanumeric (fields.map Prod.fst)) {f g : String × FieldShape} (hf : f ∈ fields)
    (hg : g ∈ fields) {p path : String} (hpf : Path.within p (Path.child path f.1))
    (hpg : Path.within p (Path.child path g.1)) : f = g := by
  have hdot : ∀ {e}, e ∈ fields → '.' ∉ e.1.toList :=
    fun he => notMem_of_alphanumeric halpha (List.mem_map_of_mem he) (by decide)
  exact List.inj_on_of_nodup_map (nodup_of_alphanumeric halpha) hf hg
    (Path.eq_of_within_child (hdot hf) (hdot hg) hpf hpg)

theorem delimited_of_alphanumeric {names : List String} (h : alphanumeric names) {name : String}
    (hn : name ∈ names) : Text.Delimited name.toList := by
  apply Text.delimited_of_isPlain
  intro c hc
  -- none of the characters that mean something to a reader is a letter or digit
  have hne : ∀ d : Char, d.isAlphanum = false → c ≠ d := by
    rintro d hd rfl
    exact notMem_of_alphanumeric h hn hd hc
  simp [Text.isPlain, Text.isOpening, Text.isClosing, hne '"' (by decide), hne '[' (by decide),
    hne '\x7b' (by decide), hne ']' (by decide), hne '\x7d' (by decide), hne ',' (by decide)]

namespace Shape

/-- In every object of the shape the names of fields are distinct and made of ASCII letters and
digits. -/
def isAlphanumeric (s : Shape) : Bool :=
  (FieldShape.object s.typeName s.fields).everyObject alphanumeric

/-- In every object of the shape the names of fields are distinct, not empty, and made of ASCII
letters and digits. -/
def isPlain (s : Shape) : Bool := (FieldShape.object s.typeName s.fields).everyObject plainNames

theorem isAlphanumeric_of_isPlain {s : Shape} (h : s.isPlain) : s.isAlphanumeric :=
  FieldShape.everyObject_mono (fun _ => alphanumeric_of_plainNames) h

/-- In every object of the shape the names of fields are distinct and made of ASCII letters and
digits, and no field of the root has an empty name.  Then only the root has the empty path. -/
def isAddressable (s : Shape) : Bool := s.isAlphanumeric && s.fields.all fun f => f.1 ≠ ""

theorem isAlphanumeric_of_isAddressable {s : Shape} (h : s.isAddressable) : s.isAlphanumeric := by
  rw [isAddressable, Bool.and_eq_true] at h
  exact h.1

theorem ne_empty_of_isAddressable {s : Shape} (h : s.isAddressable) : ∀ f ∈ s.fields, f.1 ≠ "" := by
  rw [isAddressable, Bool.and_eq_true, List.all_eq_true] at h
  exact fun f hf => of_decide_eq_true (h.2 f hf)

/-- Then no field of the root has the empty path. -/
theorem child_ne_empty_of_isAddressable {s : Shape} (h : s.isAddressable) :
    ∀ f ∈ s.fields, Path.child "" f.1 ≠ "" := by
  intro f hf
  rw [Path.child_root]
  exact ne_empty_of_isAddressable h f hf

theorem isAddressable_of_isPlain {s : Shape} (h : s.isPlain) : s.isAddressable := by
  rw [isAddressable, isAlphanumeric_of_isPlain h, Bool.true_and, List.all_eq_true]
  obtain ⟨hnames, -⟩ := FieldShape.everyObject_object.mp h
  rw [plainNames, Bool.and_eq_true, List.all_eq_true] at hnames
  exact fun f hf => hnames.2 f.1 (List.mem_map_of_mem hf)

end Shape

end SnapshotDiff
