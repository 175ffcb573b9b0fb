import SnapshotDiff.Entity
import SnapshotDiff.Proofs.Json.Canonical
import SnapshotDiff.Proofs.Shape.Names

/-!
# Nodes that fit a shape

The nodes that reading a snapshot can yield: leaves carry the key of their value, objects have
declared fields only, and collections have members of the declared kind.

## Main definitions

* `Node.Fits` — the relation, with a property that the contents of free objects have.
* `Node.Legible` — the keys of a node and of all that it holds are delimited.

## Main results

* `Node.Fits.delimited_key` — the key of a node that fits an alphanumeric shape is delimited.
* `Node.Fits.legible` — such a node is legible, whatever shape it is compared by.
* `Node.Fits.field` — the fields of an object fit their declarations.
-/

namespace SnapshotDiff

open Text

namespace Leaf

/-- The key of a leaf is delimited. -/
theorem delimited_key {kind : Leaf} {v : Json} {k : String} (h : kind.key v = .ok k) :
    Delimited k.toList := by
  cases kind with
  | string | integer | boolean =>
    cases v <;> simp only [key, Except.ok.injEq, reduceCtorEq] at h
    exact h ▸ Json.delimited_text _
  | number =>
    simp only [key] at h
    split at h
    · next x _ =>
      obtain rfl := Except.ok.inj h
      rw [String.toList_ofList]
      exact delimited_of_isPlain (x.isPlain_text _)
    · simp at h
  | dateTime =>
    cases v <;> simp only [key, reduceCtorEq] at h
    split at h
    · next t _ =>
      obtain rfl := Except.ok.inj h
      exact delimited_of_isPlain t.isPlain_text
    · simp at h
  | any => exact Except.ok.inj h ▸ Json.delimited_text _

end Leaf

namespace Node

/-- The node is what a value can be read as under the declaration.  The contents of free objects
have the property `P`. -/
inductive Fits (P : Json → Prop) : FieldShape → Node → Prop
  | leaf {kind : Leaf} {raw : Json} {k : String} (key : kind.key raw = .ok k) :
    Fits P (.leaf kind) (leaf raw k)
  | object {typeName : String} {fields : List (String × FieldShape)} {fs : Table Node}
    (ascending : fs.Ascending) (declared : ∀ f ∈ fs, f.1 ∈ fields.map Prod.fst)
    (fits : ∀ name s n, (name, s) ∈ fields → fs.get? name = some n → Fits P s n) :
    Fits P (.object typeName fields) (object fs)
  | leaves {kind : Leaf} {ms : List Node} (members : ∀ m ∈ ms, Fits P (.leaf kind) m) :
    Fits P (.leaves kind) (collection ms)
  | objects {typeName : String} {fields : List (String × FieldShape)} {identity : Option String}
    {ms : List Node} (members : ∀ m ∈ ms, Fits P (.object typeName fields) m) :
    Fits P (.objects typeName fields identity) (collection ms)
  | free {ms : Table Json} (contents : P (.obj ms)) : Fits P .free (free ms)

namespace Fits

variable {P : Json → Prop} {typeName : String} {fields : List (String × FieldShape)}
  {fs : Table Node} {name : String} {s : FieldShape} {n : Node}

theorem ascending_fields (h : Fits P (.object typeName fields) (.object fs)) : fs.Ascending := by
  cases h with
  | object ascending _ _ => exact ascending

/-- What an object has under a declared name fits the declaration. -/
theorem field (h : Fits P (.object typeName fields) (.object fs)) (hs : (name, s) ∈ fields)
    (hn : fs.get? name = some n) : Fits P s n := by
  cases h with
  | object _ _ fits => exact fits name s n hs hn

/-- Every field that an object has is declared, and fits its declaration. -/
theorem exists_declaration (h : Fits P (.object typeName fields) (.object fs))
    (hn : (name, n) ∈ fs) : ∃ s, (name, s) ∈ fields ∧ Fits P s n := by
  cases h with
  | object ascending declared fits =>
    obtain ⟨⟨_, s⟩, hs, rfl⟩ := List.mem_map.mp (declared _ hn)
    exact ⟨s, hs, fits _ s n hs ((Table.get?_eq_some_iff ascending).mpr hn)⟩

/-- The members of a collection of objects are objects. -/
theorem exists_object (h : Fits P (.object typeName fields) n) : ∃ fs, n = Node.object fs := by
  cases h with
  | object _ _ _ => exact ⟨_, rfl⟩

/-- What fits the declaration of a collection is one, of members that fit theirs. -/
theorem exists_collection {element : FieldShape} (h : Fits P s n) (hs : s.element? = some element) :
    ∃ ms, n = Node.collection ms ∧ ∀ m ∈ ms, Fits P element m := by
  cases h with
  | leaves members => exact ⟨_, rfl, Option.some.inj hs ▸ members⟩
  | objects members => exact ⟨_, rfl, Option.some.inj hs ▸ members⟩
  | _ => simp [FieldShape.element?] at hs

/-- **The key of a node is delimited**, if the names in its shape are alphanumeric. -/
theorem delimited_key (h : Fits P s n) (hs : s.everyObject alphanumeric) :
    Delimited n.key.toList := by
  -- objects and collections are written between brackets, with commas between what they hold
  have hbrackets : ∀ ss : List String, (∀ s ∈ ss, Delimited s.toList) →
      ∀ {o c : String} {co cc : Char}, o.toList = [co] → c.toList = [cc] → isOpening co →
        isClosing cc → Delimited (o ++ joined "," ss ++ c).toList := by
    intro ss hss o c co cc ho hc hopen hclose
    have henclosed := enclosed_joined fun s hs => (hss s hs).enclosed
    rw [String.toList_append, String.toList_append, ho, hc]
    exact henclosed.delimited_bracketed hopen hclose
  have hcollection : ∀ ms : List Node, (∀ m ∈ ms, Delimited m.key.toList) →
      Delimited (collection ms).key.toList := by
    intro ms hms
    rw [key]
    refine hbrackets _ (fun k hk => ?_) rfl rfl (by decide) (by decide)
    rw [mem_ascending, memberKeys_eq_map] at hk
    obtain ⟨m, hm, rfl⟩ := List.mem_map.mp hk
    exact hms m hm
  induction h with
  | leaf hkey => exact Leaf.delimited_key hkey
  | free _ => exact Json.delimited_text _
  | leaves _ ih => exact hcollection _ fun m hm => ih m hm rfl
  | objects _ ih =>
    rw [FieldShape.everyObject_objects] at hs
    exact hcollection _ fun m hm => ih m hm hs
  | @object typeName fields fs ascending declared fits ih =>
    obtain ⟨hnames, hfields⟩ := FieldShape.everyObject_object.mp hs
    rw [key]
    refine hbrackets _ (fun k hk => ?_) rfl rfl (by decide) (by decide)
    rw [fieldKeys_eq_map] at hk
    obtain ⟨⟨name, n⟩, hf, rfl⟩ := List.mem_map.mp hk
    obtain ⟨⟨_, s⟩, hs, rfl⟩ := List.mem_map.mp (declared _ hf)
    have hn := ih _ s n hs ((Table.get?_eq_some_iff ascending).mpr hf) (hfields _ hs)
    exact Document.delimited_colon
      (delimited_of_alphanumeric hnames (List.mem_map.mpr ⟨_, hs, rfl⟩)) hn

end Fits

/-! ### Legible nodes -/

/-- The keys of the node and of all that it holds are delimited. -/
inductive Legible : Node → Prop
  | leaf {raw : Json} {k : String} (key : Delimited k.toList) : Legible (leaf raw k)
  | object {fs : Table Node} (key : Delimited (object fs).key.toList)
    (fields : ∀ f ∈ fs, Legible f.2) : Legible (object fs)
  | collection {ms : List Node} (key : Delimited (collection ms).key.toList)
    (members : ∀ m ∈ ms, Legible m) : Legible (collection ms)
  | free {ms : Table Json} : Legible (free ms)

theorem Legible.delimited_key {n : Node} (h : n.Legible) : Delimited n.key.toList := by
  cases h with
  | leaf key | object key | collection key => exact key
  | free => exact Json.delimited_text _

/-- What an object has under a name is legible if the object is. -/
theorem Legible.field {fs : Table Node} {name : String} {n : Node} (h : (Node.object fs).Legible)
    (hn : fs.get? name = some n) : n.Legible := by
  cases h with
  | object _ fields => exact fields _ (Table.mem_of_get?_eq_some hn)

/-- **Nodes that fit an alphanumeric shape are legible.** -/
theorem Fits.legible {P : Json → Prop} {s : FieldShape} {n : Node} (h : Fits P s n)
    (hs : s.everyObject alphanumeric) : n.Legible := by
  have hkey := h.delimited_key hs
  induction h with
  | leaf => exact .leaf hkey
  | free => exact .free
  | leaves members ih =>
    exact .collection hkey fun m hm => ih m hm rfl ((members m hm).delimited_key rfl)
  | objects members ih =>
    rw [FieldShape.everyObject_objects] at hs
    exact .collection hkey fun m hm => ih m hm hs ((members m hm).delimited_key hs)
  | @object typeName fields fs ascending declared fits ih =>
    have hfields := (FieldShape.everyObject_object.mp hs).2
    refine .object hkey fun f hf => ?_
    obtain ⟨⟨_, s⟩, hs, rfl⟩ := List.mem_map.mp (declared f hf)
    have hn := (Table.get?_eq_some_iff ascending).mpr hf
    exact ih _ s _ hs hn (hfields _ hs) ((fits _ s _ hs hn).delimited_key (hfields _ hs))

end Node

end SnapshotDiff
