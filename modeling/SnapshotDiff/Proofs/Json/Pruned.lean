import SnapshotDiff.Json
import SnapshotDiff.Proofs.Shape.Names

/-!
# Values without what is not declared

A value without the members that no declaration mentions, at every depth.  A name may be declared
more than once, so a value has a list of declarations; it is read once for each of them, and a
member is kept if one of them has a field of its name.

## Main definitions

* `FieldShape.takesAll` — values are taken over as they are.
* `Json.pruned` — the value without what is not declared.

## Main results

* `Json.get?_prunedMembers` — what is left under a key.
-/

namespace SnapshotDiff

namespace FieldShape

/-- A value is taken over as it is, whatever members it has. -/
def takesAll : FieldShape → Bool
  | leaf kind => kind = .any
  | free => true
  | _ => false

/-- The fields that are declared for an object. -/
def fields? : FieldShape → Option (List (String × FieldShape))
  | object _ fields => some fields
  | _ => none

/-- All declarations of a name among fields. -/
def declarations (fields : List (String × FieldShape)) (name : String) : List FieldShape :=
  (fields.filter fun f => f.1 = name).map Prod.snd

theorem mem_declarations {fields : List (String × FieldShape)} {f : String × FieldShape}
    (hf : f ∈ fields) : f.2 ∈ declarations fields f.1 :=
  List.mem_map_of_mem (List.mem_filter.mpr ⟨hf, decide_eq_true rfl⟩)

end FieldShape

namespace Json

open FieldShape

mutual

/-- The value without what none of its declarations mentions.  Objects lose the members that are not
declared, unless no object is declared here or the value is taken over as it is. -/
def pruned (ss : List FieldShape) : Json → Json
  | obj ms =>
    if ss.any takesAll || (ss.filterMap fields?).isEmpty then obj ms
    else obj (prunedMembers (ss.filterMap fields?).flatten ms)
  | arr vs => if ss.any takesAll then arr vs else arr (prunedItems (ss.filterMap element?) vs)
  | v => v

/-- The members that the fields declare, each of them without what is not declared. -/
def prunedMembers (fields : List (String × FieldShape)) :
    List (String × Json) → List (String × Json)
  | [] => []
  | (k, v) :: ms =>
    if (declarations fields k).isEmpty then prunedMembers fields ms
    else (k, pruned (declarations fields k) v) :: prunedMembers fields ms

/-- The items without what is not declared for items. -/
def prunedItems (ss : List FieldShape) : List Json → List Json
  | [] => []
  | v :: vs => pruned ss v :: prunedItems ss vs

end

variable {ss : List FieldShape} {s : FieldShape} {fields : List (String × FieldShape)}

theorem prunedItems_eq_map (vs : List Json) : prunedItems ss vs = vs.map (pruned ss) := by
  induction vs with
  | nil => rfl
  | cons v vs ih => rw [prunedItems, ih, List.map_cons]

/-- Where values are taken over as they are, nothing is left out. -/
theorem pruned_eq_self (hs : s ∈ ss) (hall : s.takesAll) (v : Json) : pruned ss v = v := by
  have hany : ss.any takesAll := List.any_eq_true.mpr ⟨s, hs, hall⟩
  cases v with
  | obj ms => rw [pruned, hany, Bool.true_or, if_pos rfl]
  | arr vs => rw [pruned, if_pos hany]
  | null | bool _ | int _ | float _ | str _ => rfl

/-- An object that is declared is left as it is, or it loses what all its declarations together do
not mention. -/
theorem pruned_obj_cases {typeName : String} (hs : .object typeName fields ∈ ss)
    (ms : Table Json) : pruned ss (obj ms) = obj ms
      ∨ ∃ all, (∀ f ∈ fields, f ∈ all) ∧ pruned ss (obj ms) = obj (prunedMembers all ms) := by
  have hmem : fields ∈ ss.filterMap fields? := List.mem_filterMap.mpr ⟨_, hs, rfl⟩
  rw [pruned]
  split
  · exact Or.inl rfl
  · exact Or.inr ⟨_, fun f hf => List.mem_flatten.mpr ⟨fields, hmem, hf⟩, rfl⟩

/-- An array of a declared collection is left as it is, or its items lose what is not declared for
them. -/
theorem pruned_arr_cases {element : FieldShape} (hs : s ∈ ss) (helement : s.element? = some element)
    (vs : List Json) : pruned ss (arr vs) = arr vs
      ∨ ∃ es, element ∈ es ∧ pruned ss (arr vs) = arr (vs.map (pruned es)) := by
  rw [pruned]
  split
  · exact Or.inl rfl
  · rw [prunedItems_eq_map]
    exact Or.inr ⟨_, List.mem_filterMap.mpr ⟨s, hs, helement⟩, rfl⟩

/-- An object stays an object, an array an array, and everything else is left as it is. -/
theorem pruned_cases (ss : List FieldShape) (v : Json) : pruned ss v = v
    ∨ (∃ ms ns, v = obj ms ∧ pruned ss v = obj ns)
    ∨ ∃ vs ws, v = arr vs ∧ pruned ss v = arr ws := by
  cases v with
  | obj ms =>
    rw [pruned]
    split
    · exact Or.inl rfl
    · exact Or.inr (Or.inl ⟨ms, _, rfl, rfl⟩)
  | arr vs =>
    rw [pruned]
    split
    · exact Or.inl rfl
    · exact Or.inr (Or.inr ⟨vs, _, rfl, rfl⟩)
  | null | bool _ | int _ | float _ | str _ => exact Or.inl rfl

theorem pruned_eq_null_iff {v : Json} : pruned ss v = null ↔ v = null := by
  rcases pruned_cases ss v with h | ⟨ms, ns, rfl, h⟩ | ⟨vs, ws, rfl, h⟩ <;> simp [h]

/-- What is left under a key: nothing unless it is declared. -/
theorem get?_prunedMembers (ms : Table Json) (key : String) :
    Table.get? (prunedMembers fields ms) key = if (declarations fields key).isEmpty then none
      else (ms.get? key).map (pruned (declarations fields key)) := by
  induction ms with
  | nil => rw [prunedMembers, Table.get?_nil]; exact (ite_self _).symm
  | cons e ms ih =>
    obtain ⟨k, v⟩ := e
    rw [prunedMembers, Table.get?_cons]
    by_cases hk : k = key
    · subst hk
      split
      · next hempty => rw [ih, if_pos hempty]
      · rw [Table.get?_cons, if_pos rfl, if_pos rfl, Option.map_some]
    · rw [if_neg hk]
      split
      · exact ih
      · rw [Table.get?_cons, if_neg hk, ih]

end Json

end SnapshotDiff
