import SnapshotDiff.Proofs.Entity.Rendered
import SnapshotDiff.Proofs.Json.Bounded

/-!
# What an entity carries over

No part of an entity is `null`, whatever its snapshot held: reading passes over members and items
that are.  And a property of values that depends on the parts alone passes from a snapshot to every
value that is made of its entity.  Both hold for all rules, also where a shape repeats a name.

## Main definitions

* `Json.Local` — a value has the property if and only if its parts do.
* `Node.Carries` — the leaves of the node are not `null`, and all that was received has a property.

## Main results

* `Node.carries_readField` — what was read from a value carries the property of the value.
* `Node.Carries.json` — the value of such a node has the property.
* `Entity.carries_ofSnapshot` — **entities carry the properties of their snapshots.**
-/

namespace SnapshotDiff

namespace Json

/-- A value has the property if and only if its parts do; the keys of an object have to ascend. -/
structure Local (P : Json → Prop) : Prop where
  items : ∀ {vs : List Json}, P (arr vs) ↔ ∀ v ∈ vs, P v
  entries : ∀ {ms : Table Json}, P (obj ms) → ∀ m ∈ ms, P m.2
  object : ∀ {ms : Table Json}, ms.Ascending → (∀ m ∈ ms, P m.2) → P (obj ms)

theorem Local.hereditary {P : Json → Prop} (hP : Local P) : Hereditary P where
  item h hv := hP.items.mp h _ hv
  member h hv := hP.entries h _ (Table.mem_of_get?_eq_some hv)

theorem local_canonical : Local Canonical where
  items := canonical_arr_iff
  entries h := (canonical_obj_iff.mp h).2
  object hasc hms := canonical_obj_iff.mpr ⟨hasc, hms⟩

theorem local_bounded : Local Bounded where
  items := bounded_arr_iff
  entries := bounded_obj_iff.mp
  object _ hms := bounded_obj_iff.mpr hms

theorem Local.and {P Q : Json → Prop} (hP : Local P) (hQ : Local Q) :
    Local fun v => P v ∧ Q v where
  items := by
    intro vs
    rw [hP.items, hQ.items]
    exact ⟨fun h v hv => ⟨h.1 v hv, h.2 v hv⟩,
      fun h => ⟨fun v hv => (h v hv).1, fun v hv => (h v hv).2⟩⟩
  entries h m hm := ⟨hP.entries h.1 m hm, hQ.entries h.2 m hm⟩
  object hasc h := ⟨hP.object hasc fun m hm => (h m hm).1, hQ.object hasc fun m hm => (h m hm).2⟩

theorem local_isValid : Local IsValid := local_canonical.and local_bounded

end Json

namespace Node

variable {P : Json → Prop} {family : Family} {path : String} {n : Node} {fs : Table Node}

/-- The leaves of the node are not `null` and have the property, and so have its free objects. -/
inductive Carries (P : Json → Prop) : Node → Prop
  | leaf {raw : Json} {k : String} (present : raw ≠ .null) (value : P raw) :
    Carries P (leaf raw k)
  | object {fs : Table Node} (ascending : fs.Ascending) (fields : ∀ f ∈ fs, Carries P f.2) :
    Carries P (object fs)
  | collection {ns : List Node} (members : ∀ n ∈ ns, Carries P n) : Carries P (collection ns)
  | free {ms : Table Json} (contents : P (.obj ms)) : Carries P (free ms)

namespace Carries

theorem nil : Carries P (.object []) :=
  .object List.Pairwise.nil fun _ hf => absurd hf List.not_mem_nil

theorem field (h : Carries P (.object fs)) {name : String} (hn : fs.get? name = some n) :
    Carries P n := by
  cases h with
  | object _ fields => exact fields _ (Table.mem_of_get?_eq_some hn)

theorem member {ns : List Node} (h : Carries P (.collection ns)) (hn : n ∈ ns) : Carries P n := by
  cases h with
  | collection members => exact members n hn

theorem insert (h : Carries P (.object fs)) (name : String) (hn : Carries P n) :
    Carries P (.object (fs.insert name n)) := by
  cases h with
  | object ascending fields =>
    refine .object (Table.ascending_insert ascending name n) fun f hf => ?_
    rcases Table.mem_insert hf with rfl | hf
    · exact hn
    · exact fields f hf

/-- The value of the node is not `null`. -/
theorem json_ne_null (h : Carries P n) : n.json ≠ .null := by
  cases h with
  | leaf present _ => exact present
  | object | collection | free => simp [Node.json]

/-- The value of the node has the property. -/
theorem json (hP : Json.Local P) (h : Carries P n) : P n.json := by
  induction h with
  | leaf _ value => exact value
  | free contents => exact contents
  | collection _ ih =>
    rw [Node.json, memberValues_eq_map]
    refine hP.items.mpr fun v hv => ?_
    obtain ⟨n, hn, rfl⟩ := List.mem_map.mp hv
    exact ih n hn
  | @object fs ascending _ ih =>
    rw [Node.json]
    refine hP.object (ascending.of_keys_eq (keys_fieldValues fs).symm) fun m hm => ?_
    rw [fieldValues_eq_map] at hm
    obtain ⟨f, hf, rfl⟩ := List.mem_map.mp hm
    exact ih f hf

end Carries

/-! ### Reading -/

theorem carries_ofLeaf {kind : Leaf} {v : Json} (hv : v ≠ .null) (hvalue : P v)
    (h : ofLeaf family kind v path = .ok n) : Carries P n := by
  unfold ofLeaf at h
  split at h
  · obtain rfl := Except.ok.inj h
    exact .leaf hv hvalue
  · simp at h

/-- Reading fields adds to an object what each of them carries. -/
theorem carries_readFields {members : Table Json} {fields : List (String × FieldShape)}
    (hread : ∀ f ∈ fields, ∀ {p v n}, Holds members f.1 v → readField family p v f.2 = .ok n →
      Carries P n) :
    ∀ {done t : Table Node}, readFields family path members done fields = .ok t →
      Carries P (.object done) → Carries P (.object t) := by
  induction fields with
  | nil =>
    intro done t h hdone
    rw [readFields] at h
    exact Except.ok.inj h ▸ hdone
  | cons d fields ih =>
    obtain ⟨name, s⟩ := d
    obtain ⟨hfirst, hrest⟩ := List.forall_mem_cons.mp hread
    intro done t h hdone
    by_cases hheld : ∃ v, Holds members name v
    · obtain ⟨v, hv⟩ := hheld
      rw [readFields_cons_of_holds hv, Except.bind_eq_ok] at h
      obtain ⟨n, hn, h⟩ := h
      exact ih hrest h (hdone.insert name (hfirst hv hn))
    · rw [readFields_cons_of_not_holds (not_exists.mp hheld)] at h
      exact ih hrest h hdone

/-- **What was read from a value carries the property of the value.** -/
theorem carries_readField (hP : Json.Hereditary P) (s : FieldShape) : ∀ {path v n},
    v ≠ Json.null → P v → readField family path v s = .ok n → Carries P n := by
  have hobject : ∀ typeName (fields : List (String × FieldShape)),
      (∀ f ∈ fields, ∀ {path v n}, v ≠ Json.null → P v → readField family path v f.2 = .ok n →
        Carries P n) →
      ∀ {path v n}, P v → readField family path v (.object typeName fields) = .ok n →
        Carries P n := by
    intro typeName fields ih path v n hv h
    obtain ⟨ms, fs, rfl, hfs, rfl⟩ := readField_object_eq_ok.mp h
    exact carries_readFields (fun f hf _ _ _ hheld => ih f hf hheld.2 (hP.member hv hheld.1)) hfs
      .nil
  -- items that are `null` are no members
  have hcollection : ∀ {s element : FieldShape}, s.element? = some element →
      (∀ {path v n}, v ≠ Json.null → P v → readField family path v element = .ok n →
        Carries P n) →
      ∀ {path v n}, P v → readField family path v s = .ok n → Carries P n := by
    intro s element hs ih path v n hv h
    obtain ⟨vs, ns, rfl, hns, rfl⟩ := (readField_collection_eq_ok hs).mp h
    refine .collection fun n hn => ?_
    obtain ⟨w, hw, hnull, p, hread⟩ := exists_item_of_ofItems hns n hn
    exact ih hnull (hP.item hv hw) hread
  have hleaf : ∀ kind : Leaf, ∀ {path v n}, v ≠ Json.null → P v →
      readField family path v (.leaf kind) = .ok n → Carries P n := by
    intro kind path v n hv hvalue h
    rw [readField] at h
    exact carries_ofLeaf hv hvalue h
  induction s using FieldShape.fieldInduction with
  | leaf kind => exact hleaf kind
  | object typeName fields ih => exact fun _ hv h => hobject typeName fields ih hv h
  | leaves kind => exact fun _ hv h => hcollection rfl (hleaf kind) hv h
  | objects typeName fields identity ih =>
    exact fun _ hv h => hcollection rfl (fun _ => hobject typeName fields ih) hv h
  | free =>
    intro path v n _ hv h
    rw [readField] at h
    obtain ⟨ms, hms, h⟩ := Except.bind_eq_ok.mp h
    obtain rfl := Except.ok.inj h
    exact .free (objectMembers_eq_ok.mp hms ▸ hv)

/-- The objects that are created on a path are empty or were there. -/
theorem Carries.openObjects {names : List String} : ∀ {fs : Table Node},
    Carries P (.object fs) → Carries P (.object (Node.openObjects fs names).1) := by
  induction names with
  | nil => exact fun h => h
  | cons name names ih =>
    intro fs h
    unfold Node.openObjects
    split
    · exact h.insert name (ih .nil)
    · next hget => exact h.insert name (ih (h.field hget))
    · exact h

end Node

namespace Entity

variable {P : Json → Prop} {rules : Rules} {snapshot : Option Json} {e : Entity}

/-- **Entities carry the properties of their snapshots**, if the layout that the shape describes
does. -/
theorem carries_ofSnapshot (hP : Json.Hereditary P) (hrules : rules.Preserves P)
    (hsnapshot : ∀ v ∈ snapshot, P v) (h : ofSnapshot rules snapshot = .ok e) :
    Node.Carries P (.object e.root) := by
  obtain ⟨root, hroot, rfl⟩ := ofSnapshot_eq_ok.mp h
  have hread : Node.Carries P (.object root) := by
    rcases readRoot_eq_ok.mp hroot with ⟨-, rfl⟩ | ⟨ms, out, rfl, hout, -, hread⟩
    · exact .nil
    · have hvalue := hrules ms out (hsnapshot _ rfl) hout
      exact Node.carries_readFields (fun f _ _ _ _ hheld =>
        Node.carries_readField hP f.2 hheld.2 (hP.member hvalue hheld.1)) hread .nil
  -- default objects are created one by one
  refine List.foldlRecOn (motive := fun root => Node.Carries P (.object root))
    rules.defaultObjects (openDefault rules.shape) hread fun _ h path _ => ?_
  unfold openDefault
  split
  · exact h.openObjects
  · exact h

end Entity

end SnapshotDiff
