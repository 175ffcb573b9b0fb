import SnapshotDiff.Json
import SnapshotDiff.Proofs.Table

/-!
# Canonical values

The values that occur have objects with ascending keys, at every depth; that is what makes one
value one term.  A property of values that passes to items and members can be followed from a
snapshot into everything that is read from it.

## Main definitions

* `Json.Hereditary` — a property of values passes to their items and members.

## Main results

* `Json.memberInduction`, `Json.pairInduction` — induction along the members of objects.
* `Json.canonical_obj_iff`, `Json.canonical_arr_iff` — what canonical means for objects and arrays.
* `Json.hereditary_canonical` — being canonical is hereditary.
-/

namespace SnapshotDiff

namespace Json

/-- Induction along the members of objects. -/
@[elab_as_elim]
theorem memberInduction {P : Json → Prop}
    (object : ∀ ms : List (String × Json), (∀ m ∈ ms, P m.2) → P (obj ms))
    (other : ∀ v, v.members? = none → P v) : ∀ v, P v
  | obj ms => object ms (membersInduction ms)
  | null => other null rfl
  | bool b => other (bool b) rfl
  | int n => other (int n) rfl
  | float x => other (float x) rfl
  | str s => other (str s) rfl
  | arr vs => other (arr vs) rfl
where
  membersInduction : ∀ ms : List (String × Json), ∀ m ∈ ms, P m.2
    | [], _, hm => absurd hm List.not_mem_nil
    | (_, v) :: ms, m, hm => by
      rcases List.mem_cons.mp hm with rfl | hm
      · exact memberInduction object other v
      · exact membersInduction ms m hm

/-- Induction along the members of two objects that are gone through side by side.  A value of which
one is no object, or that stands beside none, is a case of its own. -/
@[elab_as_elim]
theorem pairInduction {P : Json → Option Json → Prop}
    (objects : ∀ ms ns : List (String × Json), (∀ m ∈ ms, ∀ w, P m.2 w) →
      P (obj ms) (some (obj ns)))
    (others : ∀ v w, (∀ ms ns, some v = some (obj ms) → w = some (obj ns) → False) → P v w) :
    ∀ v w, P v w := by
  intro v
  induction v using memberInduction with
  | object ms ih =>
    intro w
    by_cases hobj : ∃ ns, w = some (obj ns)
    · obtain ⟨ns, rfl⟩ := hobj
      exact objects ms ns ih
    · exact others _ w fun _ ns _ hns => hobj ⟨ns, hns⟩
  | other v hv =>
    intro w
    refine others v w fun ms _ hms _ => ?_
    rw [Option.some.inj hms] at hv
    simp [members?] at hv

theorem canonicalItems_iff {vs : List Json} : CanonicalItems vs ↔ ∀ v ∈ vs, Canonical v := by
  induction vs with
  | nil => simp [CanonicalItems]
  | cons v vs ih => simp [CanonicalItems, ih]

theorem canonicalMembers_iff {ms : List (String × Json)} :
    CanonicalMembers ms ↔ ∀ m ∈ ms, Canonical m.2 := by
  induction ms with
  | nil => simp [CanonicalMembers]
  | cons m ms ih => simp [CanonicalMembers, ih]

/-- An object is canonical if its keys ascend and its members are canonical. -/
theorem canonical_obj_iff {ms : Table Json} :
    Canonical (obj ms) ↔ ms.Ascending ∧ ∀ m ∈ ms, Canonical m.2 := by
  rw [Canonical, canonicalMembers_iff]

theorem canonical_arr_iff {vs : List Json} : Canonical (arr vs) ↔ ∀ v ∈ vs, Canonical v := by
  rw [Canonical, canonicalItems_iff]

/-- The property passes from a value to its items and members. -/
structure Hereditary (P : Json → Prop) : Prop where
  item : ∀ {vs : List Json} {v : Json}, P (arr vs) → v ∈ vs → P v
  member : ∀ {ms : Table Json} {key : String} {v : Json}, P (obj ms) → ms.get? key = some v → P v

theorem hereditary_canonical : Hereditary Canonical where
  item h hv := canonical_arr_iff.mp h _ hv
  member h hv := (canonical_obj_iff.mp h).2 _ (Table.mem_of_get?_eq_some hv)

theorem hereditary_true : Hereditary fun _ => True where
  item _ _ := trivial
  member _ _ := trivial

/-- Putting a canonical value into a canonical object leaves it canonical. -/
theorem Canonical.insert {ms : Table Json} (h : Canonical (obj ms)) (key : String) {v : Json}
    (hv : Canonical v) : Canonical (obj (ms.insert key v)) := by
  rw [canonical_obj_iff] at h ⊢
  refine ⟨Table.ascending_insert h.1 key v, fun m hm => ?_⟩
  rcases Table.mem_insert hm with rfl | hm
  · exact hv
  · exact h.2 m hm

/-- Dropping a member leaves an object canonical. -/
theorem Canonical.erase {ms : Table Json} (h : Canonical (obj ms)) (key : String) :
    Canonical (obj (ms.erase key)) := by
  rw [canonical_obj_iff] at h ⊢
  exact ⟨Table.ascending_erase h.1 key, fun m hm => h.2 m (List.mem_of_mem_filter hm)⟩

/-- An object made of canonical values is canonical. -/
theorem canonical_ofList {ms : List (String × Json)} (h : ∀ m ∈ ms, Canonical m.2) :
    Canonical (obj (Table.ofList ms)) := by
  -- the members are put in one by one, so the induction is over all tables to start from
  have hfold : ∀ t : Table Json, Canonical (obj t) →
      Canonical (obj (ms.foldl (fun t e => Table.insert t e.1 e.2) t)) := by
    induction ms with
    | nil => exact fun _ ht => ht
    | cons m ms ih =>
      obtain ⟨hm, hms⟩ := List.forall_mem_cons.mp h
      exact fun t ht => ih hms _ (ht.insert m.1 hm)
  exact hfold [] (canonical_obj_iff.mpr ⟨List.Pairwise.nil, by simp⟩)

end Json

end SnapshotDiff
