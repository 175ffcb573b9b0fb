import SnapshotDiff.Proofs.BuiltIn.Layout
import SnapshotDiff.Proofs.Json.Same
import SnapshotDiff.Proofs.Node.Members

/-!
# Nodes that their values determine

A floating-point number can be equal to another one and be written in another way, so values that
are equal can have different keys.  In a shape without such numbers this does not happen: nodes of
equal values are one node.  The collections of the built-in shapes have such members only.

## Main definitions

* `FieldShape.isExact` — there are no floating-point numbers in what the shape describes.
* `FieldShape.hasExactMembers`, `FieldShape.hasExactObjects` — the members of every collection are
  of such a kind, or those that are objects.

## Main results

* `Node.Fits.eq_of_same` — nodes of an exact shape are equal if their values are.
* `Node.byKey_eq_of_same`, `Node.byIdentity_eq_of_same` — values tell the members of collections
  apart.
* `Rules.hasExactMembers_builtIn`, `Rules.hasExactObjects_builtIn` — the built-in shapes have
  collections of such nodes only.
-/

namespace SnapshotDiff

/-- Values of this kind are never floating-point numbers. -/
def Leaf.isExact (kind : Leaf) : Bool := kind ≠ .number && kind ≠ .any

namespace FieldShape

mutual

/-- Nothing that the shape describes holds a floating-point number. -/
def isExact : FieldShape → Bool
  | leaf kind | leaves kind => kind.isExact
  | object _ fields | objects _ fields _ => areExact fields
  | free => false

/-- That is so of every field. -/
def areExact : List (String × FieldShape) → Bool
  | [] => true
  | (_, s) :: fields => isExact s && areExact fields

end

mutual

/-- What the collections of an object, and of the objects nested in it, hold has a property. -/
def everyElement (p : FieldShape → Bool) : FieldShape → Bool
  | leaf _ | free => true
  | leaves kind => p (leaf kind)
  | object _ fields => everyElementOf p fields
  | objects typeName fields _ => p (object typeName fields)

/-- That is so of every field. -/
def everyElementOf (p : FieldShape → Bool) : List (String × FieldShape) → Bool
  | [] => true
  | (_, s) :: fields => everyElement p s && everyElementOf p fields

end

/-- The members of every collection in the shape are exact. -/
def hasExactMembers (s : FieldShape) : Bool := s.everyElement isExact

/-- The members of every collection in the shape are exact, if they are objects. -/
def hasExactObjects (s : FieldShape) : Bool :=
  s.everyElement fun
    | leaf _ => true
    | element => element.isExact

theorem areExact_iff {fields : List (String × FieldShape)} :
    areExact fields ↔ ∀ f ∈ fields, f.2.isExact := by
  induction fields with
  | nil => simp [areExact]
  | cons f fields ih => simp [areExact, ih]

theorem everyElement_object {p : FieldShape → Bool} {typeName : String}
    {fields : List (String × FieldShape)} :
    everyElement p (object typeName fields) ↔ ∀ f ∈ fields, f.2.everyElement p := by
  rw [everyElement]
  induction fields with
  | nil => simp [everyElementOf]
  | cons f fields ih => simp [everyElementOf, ih]

theorem everyElement_mono {p q : FieldShape → Bool} (hpq : ∀ s, p s → q s) {s : FieldShape}
    (h : s.everyElement p) : s.everyElement q := by
  induction s using fieldInduction with
  | leaf | free => rfl
  | leaves | objects => exact hpq _ h
  | object typeName fields ih =>
    rw [everyElement_object] at h ⊢
    exact fun f hf => ih f hf (h f hf)

theorem hasExactObjects_of_hasExactMembers {s : FieldShape} (h : s.hasExactMembers) :
    s.hasExactObjects := by
  refine everyElement_mono (fun element helement => ?_) h
  cases element with
  | leaf => rfl
  | _ => exact helement

theorem hasExactMembers_of_isExact {s : FieldShape} (h : s.isExact) : s.hasExactMembers := by
  induction s using fieldInduction with
  | leaf | free => rfl
  | leaves kind => exact h
  | object typeName fields ih =>
    rw [isExact, areExact_iff] at h
    rw [hasExactMembers, everyElement_object]
    exact fun f hf => ih f hf (h f hf)
  | objects typeName fields identity ih => exact h

end FieldShape

/-! ### Values -/

/-- An exact leaf holds neither a floating-point number nor a value with parts. -/
theorem Leaf.eq_of_same {kind : Leaf} (hkind : kind.isExact) {v w : Json} {k : String}
    (hkey : kind.key v = .ok k) (h : Json.same v w) : v = w := by
  refine Json.eq_of_same h ?_ ?_ ?_
  · rintro x rfl
    cases kind <;> simp [Leaf.key, Leaf.isExact] at hkey hkind
  · rintro vs rfl
    cases kind <;> simp [Leaf.key, Leaf.isExact] at hkey hkind
  · rintro ms rfl
    cases kind <;> simp [Leaf.key, Leaf.isExact] at hkey hkind

namespace Node

/-- Fields of equal values are equal if that passes to each of them. -/
theorem eq_of_sameMembers {fs : List (String × Node)} : ∀ {gs : List (String × Node)},
    (∀ f ∈ fs, ∀ g ∈ gs, f.1 = g.1 → Json.same f.2.json g.2.json → f.2 = g.2) →
      Json.sameMembers (fieldValues fs) (fieldValues gs) → fs = gs := by
  induction fs with
  | nil =>
    intro gs _ h
    cases gs with
    | nil => rfl
    | cons g gs => simp [fieldValues, Json.sameMembers] at h
  | cons f fs ih =>
    intro gs heq h
    cases gs with
    | nil => simp [fieldValues, Json.sameMembers] at h
    | cons g gs =>
      simp only [fieldValues, Json.sameMembers, Bool.and_eq_true, beq_iff_eq] at h
      obtain ⟨⟨hname, hvalue⟩, hrest⟩ := h
      have hhead := heq f List.mem_cons_self g List.mem_cons_self hname hvalue
      have htail := ih (fun f' hf g' hg =>
        heq f' (List.mem_cons_of_mem f hf) g' (List.mem_cons_of_mem g hg)) hrest
      rw [htail, Prod.ext hname hhead]

theorem eq_of_sameItems {ns : List Node} : ∀ {ms : List Node},
    (∀ n ∈ ns, ∀ m ∈ ms, Json.same n.json m.json → n = m) →
      Json.sameItems (memberValues ns) (memberValues ms) → ns = ms := by
  induction ns with
  | nil =>
    intro ms _ h
    cases ms with
    | nil => rfl
    | cons m ms => simp [memberValues, Json.sameItems] at h
  | cons n ns ih =>
    intro ms heq h
    cases ms with
    | nil => simp [memberValues, Json.sameItems] at h
    | cons m ms =>
      simp only [memberValues, Json.sameItems, Bool.and_eq_true] at h
      obtain ⟨hvalue, hrest⟩ := h
      have hhead := heq n List.mem_cons_self m List.mem_cons_self hvalue
      have htail := ih (fun n' hn m' hm =>
        heq n' (List.mem_cons_of_mem n hn) m' (List.mem_cons_of_mem m hm)) hrest
      rw [htail, hhead]

/-- Objects are equal if their values are, if that is so of what they hold. -/
theorem eq_of_same_object {P : Json → Prop} {typeName : String}
    {fields : List (String × FieldShape)}
    (ih : ∀ f ∈ fields, ∀ {n m : Node}, Fits P f.2 n → Fits P f.2 m →
      Json.same n.json m.json → n = m)
    {n m : Node} (hn : Fits P (.object typeName fields) n) (hm : Fits P (.object typeName fields) m)
    (h : Json.same n.json m.json) : n = m := by
  obtain ⟨fs, rfl⟩ := hn.exists_object
  obtain ⟨gs, rfl⟩ := hm.exists_object
  refine congrArg object (eq_of_sameMembers (fun f hf g hg hname hvalue => ?_) h)
  obtain ⟨s, hs, hf'⟩ := hn.exists_declaration hf
  -- both fields have one name, so they fit one declaration
  have hg' : Table.get? gs f.1 = some g.2 := by
    rw [hname]
    exact (Table.get?_eq_some_iff hm.ascending_fields).mpr hg
  exact ih _ hs hf' (hm.field hs hg') hvalue

/-- **Nodes of an exact shape are equal if their values are.** -/
theorem Fits.eq_of_same {P : Json → Prop} {s : FieldShape} (hs : s.isExact) :
    ∀ {n m : Node}, Fits P s n → Fits P s m → Json.same n.json m.json → n = m := by
  -- leaves of equal values are written alike, so that they have one key as well
  have hleaf : ∀ {kind : Leaf}, kind.isExact → ∀ {n m : Node}, Fits P (.leaf kind) n →
      Fits P (.leaf kind) m → Json.same n.json m.json → n = m := by
    intro kind hkind n m hn hm h
    cases hn with
    | leaf hk =>
      cases hm with
      | leaf hk' =>
        obtain rfl := Leaf.eq_of_same hkind hk h
        rw [Except.ok.inj (hk.symm.trans hk')]
  induction s using FieldShape.fieldInduction with
  | leaf kind =>
    intro n m hn hm h
    exact hleaf hs hn hm h
  | object typeName fields ih =>
    rw [FieldShape.isExact, FieldShape.areExact_iff] at hs
    intro n m hn hm h
    exact eq_of_same_object (fun f hf => ih f hf (hs f hf)) hn hm h
  | leaves kind =>
    intro n m hn hm h
    cases hn with
    | leaves hns =>
      cases hm with
      | leaves hms =>
        refine congrArg collection (eq_of_sameItems (fun n hn m hm => ?_) h)
        exact hleaf hs (hns n hn) (hms m hm)
  | objects typeName fields identity ih =>
    rw [FieldShape.isExact, FieldShape.areExact_iff] at hs
    intro n m hn hm h
    cases hn with
    | objects hns =>
      cases hm with
      | objects hms =>
        refine congrArg collection (eq_of_sameItems (fun n hn m hm => ?_) h)
        exact eq_of_same_object (fun f hf => ih f hf (hs f hf)) (hns n hn) (hms m hm)
  | free =>
    rw [FieldShape.isExact] at hs
    cases hs

/-! ### Members told apart -/

section Members

open Finding (byKey byIdentity)

variable {P : Json → Prop} {s : FieldShape} {typeName identity : String}
  {fields : List (String × FieldShape)} {ns : List Node}

/-- Equal values belong to one key. -/
theorem byKey_eq_of_same (hs : s.isExact) (hns : ∀ n ∈ ns, Fits P s n) :
    ∀ m ∈ byKey ns, ∀ n ∈ byKey ns, Json.same m.2.json n.2.json → m.1 = n.1 := by
  intro m hm n hn hsame
  obtain ⟨hmem, hkey⟩ := exists_of_mem_byKey hm
  obtain ⟨hmem', hkey'⟩ := exists_of_mem_byKey hn
  rw [hkey, hkey', (hns _ hmem).eq_of_same hs (hns _ hmem') hsame]

/-- Equal values are those of one member with its identity. -/
theorem byIdentity_eq_of_same (hs : (FieldShape.object typeName fields).isExact)
    (hns : ∀ n ∈ ns, Fits P (.object typeName fields) n) :
    ∀ m ∈ byIdentity identity ns, ∀ n ∈ byIdentity identity ns,
      Json.same (object m.2).json (object n.2).json → m = n := by
  intro m hm n hn hsame
  obtain ⟨hmem, hkey⟩ := exists_of_mem_byIdentity hm
  obtain ⟨hmem', hkey'⟩ := exists_of_mem_byIdentity hn
  have hfields := object.inj ((hns _ hmem).eq_of_same hs (hns _ hmem') hsame)
  exact Prod.ext (by rw [hkey, hkey', hfields]) hfields

end Members

end Node

/-! ### Built-in shapes -/

/-- The collections of the built-in shapes have exact members. -/
theorem Rules.hasExactMembers_builtIn (f : Family) :
    (FieldShape.object (builtIn f).shape.typeName (builtIn f).shape.fields).hasExactMembers := by
  cases f <;> decide

theorem Rules.hasExactObjects_builtIn (f : Family) :
    (FieldShape.object (builtIn f).shape.typeName (builtIn f).shape.fields).hasExactObjects :=
  FieldShape.hasExactObjects_of_hasExactMembers (hasExactMembers_builtIn f)

end SnapshotDiff
