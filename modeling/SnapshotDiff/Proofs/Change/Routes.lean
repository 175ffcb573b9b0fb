import SnapshotDiff.Proofs.Change.Congruence
import SnapshotDiff.Proofs.Path

/-!
# Routes through free objects

A change in a free object is told at a dotted path, and a key may have dots of its own.  What leads
to the change and to nothing else is its route, the list of the keys on the way.  A free object is
told about at every route at which it differs, and once only.

## Main definitions

* `FieldChange.DifferAt` — two values of free objects differ at a route.
* `FieldChange.ToldAt` — the changes of two values are told at the given routes.
* `FieldChange.Unambiguous` — no two routes at which free objects differ are written alike.

## Main results

* `FieldChange.exists_toldAt` — the changes of two values are told at the routes at which the values
  differ.
* `FieldChange.unambiguous_of_dotless` — routes are written alike only if keys have dots.
* `FieldChange.nodup_path_ofFree_iff` — **the changes of a free object have different paths if and
  only if no two routes at which it differs are written alike.**
-/

namespace SnapshotDiff

open Finding (present? sides sideKeys mem_of_present?_lookup)

namespace FieldChange

variable {rules : Rules} {old new : Option Json} {ms ns : Table Json} {route : List String}

/-- Two values of free objects, where `null` counts as none, differ at a route of keys.  The keys
lead through objects on both sides to a value that only one side has, or to two values that are not
equal and not both objects. -/
def DifferAt : (route : List String) → (old new : Option Json) → Prop
  | k :: route, some (.obj ms), some (.obj ns) =>
    DifferAt route (present? (Table.get? ms k)) (present? (Table.get? ns k))
  | _ :: _, _, _ => False
  | [], some (.obj _), some (.obj _) => False
  | [], old, new => Json.same? old new = false

@[simp] theorem differAt_cons_objects {k : String} :
    DifferAt (k :: route) (some (.obj ms)) (some (.obj ns))
      ↔ DifferAt route (present? (Table.get? ms k)) (present? (Table.get? ns k)) := by
  rw [DifferAt]

/-- Two objects do not differ as wholes. -/
theorem not_differAt_nil_objects : ¬DifferAt [] (some (.obj ms)) (some (.obj ns)) := by
  simp [DifferAt]

/-- Values of which one is no object differ as wholes only. -/
theorem differAt_iff_of_not_objects
    (h : ∀ ms ns, old = some (.obj ms) → new = some (.obj ns) → False) :
    DifferAt route old new ↔ route = [] ∧ Json.same? old new = false := by
  cases route with
  | nil =>
    rw [DifferAt]
    · simp
    · exact h
  | cons k route =>
    rw [DifferAt]
    · simp
    · exact h

/-- A route through two objects begins with a key that one of them has. -/
theorem mem_keys_of_differAt {k : String}
    (h : DifferAt (k :: route) (some (.obj ms)) (some (.obj ns))) : k ∈ ms.keys ∨ k ∈ ns.keys := by
  by_contra hk
  rw [not_or, ← Table.get?_isSome_iff_mem, ← Table.get?_isSome_iff_mem,
    Option.not_isSome_iff_eq_none, Option.not_isSome_iff_eq_none] at hk
  rw [differAt_cons_objects, hk.1, hk.2,
    differAt_iff_of_not_objects fun _ _ h => by simp [present?] at h] at h
  simp [present?] at h

/-- The changes of two values are told at the given routes, which are those at which the values
differ. -/
structure ToldAt (rules : Rules) (old new : Option Json) (routes : List (List String)) : Prop where
  nodup : routes.Nodup
  mem_iff : ∀ {route}, route ∈ routes ↔ DifferAt route old new
  paths : ∀ {name path : String}, path ≠ "" → (∀ p, Path.within p path → rules.reportable p) →
    (ofFreeValues rules name path old new).map FieldChange.path = routes.map (Path.along path)

/-- Values that are not both objects are told about as wholes. -/
theorem exists_toldAt_of_not_objects
    (h : ∀ ms ns, old = some (.obj ms) → new = some (.obj ns) → False) :
    ∃ routes, ToldAt rules old new routes := by
  refine ⟨if Json.same? old new then [] else [[]], ?_, ?_, ?_⟩
  · split
    · exact List.nodup_nil
    · exact List.nodup_singleton _
  · intro route
    rw [differAt_iff_of_not_objects h]
    cases Json.same? old new <;> simp
  · intro name path _ _
    rw [ofFreeValues_eq_ofValues h]
    cases old <;> cases new
    · rfl
    · rfl
    · rfl
    · next v w =>
      rw [ofValues, Json.same?_some_some]
      split <;> rfl

/-- Two objects are told about key by key. -/
theorem exists_toldAt_of_keys (hms : (ms.map Prod.fst).Nodup) (hns : (ns.map Prod.fst).Nodup)
    (h : ∀ k, ∃ routes, ToldAt rules (present? (ms.lookup k)) (present? (ns.lookup k)) routes) :
    ∃ routes, ToldAt rules (some (.obj ms)) (some (.obj ns)) routes := by
  choose below hbelow using h
  refine ⟨(sideKeys ms ns).flatMap fun k => (below k).map (k :: ·), ?_, ?_, ?_⟩
  · rw [List.nodup_flatMap]
    refine ⟨fun k _ => (hbelow k).nodup.map (List.cons_injective), ?_⟩
    -- routes that begin with different keys are different
    refine (List.nodup_iff_pairwise_ne.mp (Finding.nodup_sideKeys hms hns)).imp ?_
    intro k l hne route hk hl
    obtain ⟨rest, -, rfl⟩ := List.mem_map.mp hk
    obtain ⟨rest', -, heq⟩ := List.mem_map.mp hl
    exact hne (List.cons.inj heq).1.symm
  · intro route
    cases route with
    | nil => simp [not_differAt_nil_objects]
    | cons k route =>
      have hcons : DifferAt (k :: route) (some (.obj ms)) (some (.obj ns)) ↔ route ∈ below k := by
        rw [differAt_cons_objects, Table.get?_eq_lookup, Table.get?_eq_lookup, (hbelow k).mem_iff]
      simp only [List.mem_flatMap, List.mem_map, List.cons.injEq]
      constructor
      · rintro ⟨k, -, rest, hrest, rfl, rfl⟩
        exact hcons.mpr hrest
      · intro hroute
        exact ⟨k, Finding.mem_sideKeys.mpr (mem_keys_of_differAt hroute), route,
          hcons.mp hroute, rfl, rfl⟩
  · intro name path hpath hreport
    show (ofFree rules path ms ns).map FieldChange.path = _
    rw [ofFree_eq_sides, Finding.sides_eq_flatMap hms hns, List.map_flatMap, List.map_flatMap]
    refine List.flatMap_congr fun k _ => ?_
    have hchild := Path.within_child hpath k
    rw [ofFreeSides, if_pos (hreport _ hchild), List.map_map,
      (hbelow k).paths (Path.child_ne_empty_of_ne hpath k) fun p hp =>
        hreport p (Path.within_trans hp hchild)]
    rfl

/-- **The changes of two values are told at the routes at which the values differ.** -/
theorem exists_toldAt (v : Json) (w : Option Json) (hv : v.Canonical)
    (hw : ∀ x ∈ w, x.Canonical) : ∃ routes, ToldAt rules (some v) w routes := by
  induction v, w using Json.pairInduction with
  | others v w hobjects => exact exists_toldAt_of_not_objects hobjects
  | objects ms ns ih =>
    have hns := Json.canonical_obj_iff.mp (hw _ rfl)
    rw [Json.canonical_obj_iff] at hv
    refine exists_toldAt_of_keys hv.1.nodup_keys hns.1.nodup_keys fun k => ?_
    cases hold : present? (ms.lookup k) with
    | none => exact exists_toldAt_of_not_objects fun _ _ h => by simp at h
    | some a =>
      have ha := mem_of_present?_lookup hold
      exact ih _ ha _ (hv.2 _ ha) fun x hx => hns.2 _ (mem_of_present?_lookup hx)

/-! ### Routes that are written alike -/

/-- No two routes at which two free objects differ are written alike from the given path. -/
def Unambiguous (path : String) (old new : Table Json) : Prop :=
  ∀ p q, DifferAt p (some (.obj old)) (some (.obj new)) →
    DifferAt q (some (.obj old)) (some (.obj new)) → Path.along path p = Path.along path q → p = q

/-- Keys without dots can be told from their path. -/
theorem unambiguous_of_dotless {path : String} (hpath : path ≠ "")
    (h : ∀ route, DifferAt route (some (.obj ms)) (some (.obj ns)) → ∀ k ∈ route, '.' ∉ k.toList) :
    Unambiguous path ms ns :=
  fun p q hp hq => Path.along_inj hpath (h p hp) (h q hq)

/-- **The changes of a free object have different paths if and only if no two routes at which it
differs are written alike.** -/
theorem nodup_path_ofFree_iff {path : String} (hms : (Json.obj ms).Canonical)
    (hns : (Json.obj ns).Canonical) (hpath : path ≠ "")
    (hreport : ∀ p, Path.within p path → rules.reportable p) :
    ((ofFree rules path ms ns).map FieldChange.path).Nodup ↔ Unambiguous path ms ns := by
  obtain ⟨routes, htold⟩ : ∃ routes, ToldAt rules (some (.obj ms)) (some (.obj ns)) routes :=
    exists_toldAt _ _ hms fun _ hx => Option.some.inj hx ▸ hns
  have hpaths : (ofFree rules path ms ns).map FieldChange.path = routes.map (Path.along path) :=
    @htold.paths "" path hpath hreport
  rw [hpaths, List.nodup_map_iff_inj_on htold.nodup]
  simp only [htold.mem_iff]
  exact ⟨fun h p q hp hq => h p hp q hq, fun h p hp q hq => h p q hp hq⟩

end FieldChange

end SnapshotDiff
