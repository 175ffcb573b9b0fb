import SnapshotDiff.Proofs.Change.Fields
import SnapshotDiff.Proofs.Path
import SnapshotDiff.Proofs.Shape.Names

/-!
# What is found where paths are ignored

A path that is ignored is not walked, and neither is anything below it.  Every finding has a place,
the path of its field or of its collection, and lies below the paths that were walked to it.  So the
findings of a walk that leaves paths out are those of the full walk that have another place.

## Main definitions

* `Path.outside` — the path is none of the given ones and lies below none of them.
* `Finding.place` — the path of the field or of the collection.

## Main results

* `Finding.within_of_mem_ofField` — what is found on a field lies below the field.
* `Finding.ofFields_ignoring` — ignoring paths leaves out the findings that lie there.
-/

namespace SnapshotDiff

/-- The path is none of the given ones and lies below none of them. -/
def Path.outside (tops : List String) (path : String) : Bool :=
  !tops.any fun top => Path.within path top

open SnapshotDiff.Path (outside)

variable {rules : Rules} {tops : List String} {path : String}

theorem Path.outside_of_within {below : String} (h : within below path)
    (hout : outside tops below) : outside tops path := by
  simp only [outside, Bool.not_eq_true', List.any_eq_false] at hout ⊢
  intro top htop hwithin
  exact hout top htop (within_trans h hwithin)

/-- Of what lies below a path either nothing is left or what is left inside is. -/
theorem filter_walked {α : Type} {place : α → String} {xs ys : List α}
    (hxs : ∀ x ∈ xs, Path.within (place x) path)
    (h : outside tops path → xs.filter (fun x => outside tops (place x)) = ys) :
    (if rules.reportable path then xs else []).filter (fun x => outside tops (place x))
      = if (rules.ignoring tops).reportable path then ys else [] := by
  rw [Rules.ignoring_reportable, ← outside]
  cases hreportable : rules.reportable path with
  | false => simp
  | true =>
    cases hout : outside tops path with
    | true => simpa using h hout
    | false =>
      simp only [if_true, Bool.and_false, Bool.false_eq_true, if_false]
      refine List.filter_eq_nil_iff.mpr fun x hx hleft => ?_
      rw [Path.outside_of_within (hxs x hx) hleft] at hout
      exact absurd hout (by decide)

namespace FieldChange

/-! ### Free objects -/

theorem filter_ofValues {name : String} (hout : outside tops path) (old new : Option Json)
    (equal : Bool) : (ofValues name path old new equal).filter (fun c => outside tops c.path)
      = ofValues name path old new equal :=
  List.filter_eq_self.mpr fun c hc => by rwa [path_of_mem_ofValues hc]

theorem within_of_mem_ofArrivals (hpath : path ≠ "") {old new : Table Json} {c : FieldChange}
    (h : c ∈ ofArrivals rules path old new) : Path.within c.path path := by
  obtain ⟨m, -, hc⟩ := List.mem_flatMap.mp h
  split at hc
  · rw [path_of_mem_ofValues hc]
    exact Path.within_child hpath m.1
  · exact absurd hc List.not_mem_nil

mutual

theorem within_of_mem_ofEntries {path : String} (hpath : path ≠ "") {new : Table Json}
    {c : FieldChange} : ∀ old, c ∈ ofEntries rules path new old → Path.within c.path path
  | [], h => absurd h List.not_mem_nil
  | (k, v) :: old, h => by
    rw [ofEntries] at h
    rcases List.mem_append.mp h with h | h
    · split at h
      · have hbelow := within_of_mem_ofEntry (Path.child_ne_empty_of_ne hpath k) v h
        exact Path.within_trans hbelow (Path.within_child hpath k)
      · exact absurd h List.not_mem_nil
    · exact within_of_mem_ofEntries hpath old h

theorem within_of_mem_ofEntry {name path : String} (hpath : path ≠ "") {new : Option Json}
    {c : FieldChange} : ∀ old, c ∈ ofEntry rules name path new old → Path.within c.path path
  | .obj ms, h => by
    rw [ofEntry.eq_def] at h
    dsimp only at h
    split at h
    · rcases List.mem_append.mp h with h | h
      · exact within_of_mem_ofEntries hpath ms h
      · exact within_of_mem_ofArrivals hpath h
    · rw [path_of_mem_ofValues h]
      exact Path.within_self path
  | .null, h | .bool _, h | .int _, h | .float _, h | .str _, h | .arr _, h => by
    rw [ofEntry.eq_def] at h
    rw [path_of_mem_ofValues h]
    exact Path.within_self path

end

theorem within_of_mem_ofFree (hpath : path ≠ "") {old new : Table Json} {c : FieldChange}
    (h : c ∈ ofFree rules path old new) : Path.within c.path path := by
  rcases List.mem_append.mp h with h | h
  · exact within_of_mem_ofEntries hpath old h
  · exact within_of_mem_ofArrivals hpath h

theorem ofArrivals_ignoring (old new : Table Json) :
    (ofArrivals rules path old new).filter (fun c => outside tops c.path)
      = ofArrivals (rules.ignoring tops) path old new := by
  rw [ofArrivals, ofArrivals, List.filter_flatMap]
  refine List.flatMap_congr fun m _ => filter_walked (fun c hc => ?_) fun hout => ?_
  · rw [path_of_mem_ofValues hc]
    exact Path.within_self _
  · exact filter_ofValues hout _ _ _

mutual

theorem ofEntries_ignoring {path : String} (hpath : path ≠ "") (new : Table Json) :
    ∀ old, (ofEntries rules path new old).filter (fun c => outside tops c.path)
      = ofEntries (rules.ignoring tops) path new old
  | [] => by rw [ofEntries, ofEntries, List.filter_nil]
  | (k, v) :: old => by
    have hbelow := Path.child_ne_empty_of_ne hpath k
    rw [ofEntries, ofEntries, List.filter_append, ofEntries_ignoring hpath new old]
    congr 1
    exact filter_walked (fun c hc => within_of_mem_ofEntry hbelow v hc) fun hout =>
      ofEntry_ignoring hbelow hout _ v

theorem ofEntry_ignoring {name path : String} (hpath : path ≠ "") (hout : outside tops path)
    (new : Option Json) : ∀ old,
      (ofEntry rules name path new old).filter (fun c => outside tops c.path)
        = ofEntry (rules.ignoring tops) name path new old
  | .obj ms => by
    rw [ofEntry.eq_def, ofEntry.eq_def]
    dsimp only
    split
    · rw [List.filter_append, ofEntries_ignoring hpath _ ms, ofArrivals_ignoring]
    · exact filter_ofValues hout _ _ _
  | .null | .bool _ | .int _ | .float _ | .str _ | .arr _ => by
    rw [ofEntry.eq_def, ofEntry.eq_def]
    exact filter_ofValues hout _ _ _

end

/-- In a free object the changes at ignored paths are left out. -/
theorem ofFree_ignoring (hpath : path ≠ "") (old new : Table Json) :
    (ofFree rules path old new).filter (fun c => outside tops c.path)
      = ofFree (rules.ignoring tops) path old new := by
  rw [ofFree, ofFree, List.filter_append, ofEntries_ignoring hpath, ofArrivals_ignoring]

end FieldChange

namespace Finding

/-- The path of the field that differs, or of the collection that the member belongs to. -/
def place : Finding → String
  | field _ change => change.path
  | member site _ _ _ | matched site _ _ _ => site.collection

/-! ### What lies below a field -/

theorem within_of_mem_ofSides {α : Type} {o : Owner} {typeName : String} {json : α → Json}
    {both : String → α → α → List Finding}
    (hboth : ∀ k a b, ∀ f ∈ both k a b, Path.within f.place path) {olds news : List (String × α)}
    {f : Finding} (h : f ∈ sides (ofSides o typeName path json both) olds news) :
    Path.within f.place path := by
  obtain ⟨k, a, b, -, -, hf⟩ := exists_of_mem_sides h
  match a, b with
  | none, none => exact absurd hf List.not_mem_nil
  | some a, none | none, some b =>
    rw [List.mem_singleton.mp hf]
    exact Path.within_self path
  | some a, some b => exact hboth k a b f hf

theorem within_of_mem_fields {fields : List (String × FieldShape)} (hpath : path ≠ "")
    (ih : ∀ g ∈ fields, ∀ {o : Owner} {name path : String} {old new : Option Node}, path ≠ "" →
      ∀ f ∈ ofField rules o name path old new g.2, Path.within f.place path)
    {o : Owner} {old new : Table Node} :
    ∀ f ∈ ofFields rules o path old new fields, Path.within f.place path := by
  intro f hf
  rw [ofFields_eq_flatMap] at hf
  obtain ⟨g, hg, hf⟩ := List.mem_flatMap.mp hf
  split at hf
  · have hbelow := ih g hg (Path.child_ne_empty_of_ne hpath g.1) f hf
    exact Path.within_trans hbelow (Path.within_child hpath g.1)
  · exact absurd hf List.not_mem_nil

/-- **What is found on a field lies below the field.** -/
theorem within_of_mem_ofField (s : FieldShape) :
    ∀ {o : Owner} {name path : String} {old new : Option Node}, path ≠ "" →
      ∀ f ∈ ofField rules o name path old new s, Path.within f.place path := by
  have hmap : ∀ {o : Owner} {path : String} {cs : List FieldChange},
      (∀ c ∈ cs, Path.within c.path path) → ∀ f ∈ cs.map (field o), Path.within f.place path := by
    intro o path cs hcs f hf
    obtain ⟨c, hc, rfl⟩ := List.mem_map.mp hf
    exact hcs c hc
  induction s using FieldShape.fieldInduction with
  | leaf kind =>
    intro o name path old new _
    rw [ofField, ofLeaves_eq_map]
    exact hmap fun c hc => FieldChange.path_of_mem_ofLeaves hc ▸ Path.within_self _
  | object typeName fields ih =>
    intro o name path old new hpath
    rw [ofField.eq_def]
    dsimp only
    split
    · exact within_of_mem_fields hpath ih
    · rw [ofValues_eq_map]
      exact hmap fun c hc => FieldChange.path_of_mem_ofValues hc ▸ Path.within_self _
  | leaves kind =>
    intro o name path old new _ f hf
    rw [ofField, ofSets_eq_sides] at hf
    exact within_of_mem_ofSides (fun _ _ _ _ h => absurd h List.not_mem_nil) hf
  | objects typeName fields identity ih =>
    intro o name path old new hpath f hf
    cases identity with
    | none =>
      rw [ofField, ofSets_eq_sides] at hf
      exact within_of_mem_ofSides (fun _ _ _ _ h => absurd h List.not_mem_nil) hf
    | some identity =>
      rw [ofField_objects_eq_sides] at hf
      refine within_of_mem_ofSides (fun k fs gs f hf => ?_) hf
      rcases List.mem_cons.mp hf with rfl | hf
      · exact Path.within_self path
      · exact within_of_mem_fields hpath ih f hf
  | free =>
    intro o name path old new hpath
    rw [ofField, ofFree_eq_map]
    exact hmap fun c hc => FieldChange.within_of_mem_ofFree hpath hc

/-! ### Ignored paths -/

theorem ofSides_ignoring {α : Type} {o : Owner} {typeName : String} {json : α → Json}
    {both both' : String → α → α → List Finding} (hout : outside tops path)
    (hboth : ∀ k a b, (both k a b).filter (fun f => outside tops f.place) = both' k a b)
    (olds news : List (String × α)) :
    (sides (ofSides o typeName path json both) olds news).filter (fun f => outside tops f.place)
      = sides (ofSides o typeName path json both') olds news := by
  -- a member on one side only is found at the path of the collection
  have hone : ∀ kind k value, [ofMember o typeName path kind k value].filter
      (fun f => outside tops f.place) = [ofMember o typeName path kind k value] :=
    fun kind k value => List.filter_cons_of_pos hout
  rw [filter_sides]
  congr 1
  funext k a b
  match a, b with
  | none, none => rfl
  | some a, none | none, some b => exact hone _ _ _
  | some a, some b => exact hboth k a b

theorem fields_ignoring {fields : List (String × FieldShape)}
    (hne : ∀ g ∈ fields, Path.child path g.1 ≠ "")
    (ih : ∀ g ∈ fields, ∀ {o : Owner} {name path : String} {old new : Option Node}, path ≠ "" →
      outside tops path → (ofField rules o name path old new g.2).filter
        (fun f => outside tops f.place) = ofField (rules.ignoring tops) o name path old new g.2)
    {o : Owner} {old new : Table Node} :
    (ofFields rules o path old new fields).filter (fun f => outside tops f.place)
      = ofFields (rules.ignoring tops) o path old new fields := by
  rw [ofFields_eq_flatMap, ofFields_eq_flatMap, List.filter_flatMap]
  refine List.flatMap_congr fun g hg => filter_walked ?_ fun hout => ?_
  · exact within_of_mem_ofField g.2 (hne g hg)
  · exact ih g hg (hne g hg) hout

theorem ofField_ignoring (s : FieldShape) :
    ∀ {o : Owner} {name path : String} {old new : Option Node}, path ≠ "" → outside tops path →
      (ofField rules o name path old new s).filter (fun f => outside tops f.place)
        = ofField (rules.ignoring tops) o name path old new s := by
  have hmap : ∀ {o : Owner} {cs cs' : List FieldChange},
      cs.filter (fun c => outside tops c.path) = cs' →
        (cs.map (field o)).filter (fun f => outside tops f.place) = cs'.map (field o) := by
    rintro o cs cs' rfl
    rw [List.filter_map]
    rfl
  induction s using FieldShape.fieldInduction with
  | leaf kind =>
    intro o name path old new _ hout
    rw [ofField, ofField, ofLeaves_eq_map]
    refine hmap (List.filter_eq_self.mpr fun c hc => ?_)
    rwa [FieldChange.path_of_mem_ofLeaves hc]
  | object typeName fields ih =>
    intro o name path old new hpath hout
    rw [ofField.eq_def, ofField.eq_def]
    dsimp only
    -- which objects are present does not depend on the paths that are ignored
    have hpresent : presentObject? (rules.ignoring tops) path = presentObject? rules path := rfl
    rw [hpresent]
    split
    · exact fields_ignoring (fun g _ => Path.child_ne_empty_of_ne hpath g.1) ih
    · rw [ofValues_eq_map]
      exact hmap (FieldChange.filter_ofValues hout _ _ _)
  | leaves kind =>
    intro o name path old new _ hout
    rw [ofField, ofField, ofSets_eq_sides]
    exact ofSides_ignoring hout (fun _ _ _ => rfl) _ _
  | objects typeName fields identity ih =>
    intro o name path old new hpath hout
    cases identity with
    | none =>
      rw [ofField, ofField, ofSets_eq_sides]
      exact ofSides_ignoring hout (fun _ _ _ => rfl) _ _
    | some identity =>
      rw [ofField_objects_eq_sides, ofField_objects_eq_sides]
      refine ofSides_ignoring hout (fun k fs gs => ?_) _ _
      -- the match is found at the path of the collection, and what follows it below
      rw [ofMatch, ofMatch, List.filter_cons]
      refine (if_pos hout).trans (congrArg _ ?_)
      exact fields_ignoring (fun g _ => Path.child_ne_empty_of_ne hpath g.1) ih
  | free =>
    intro o name path old new hpath _
    rw [ofField, ofField, ofFree_eq_map, ofFree_eq_map]
    exact hmap (FieldChange.ofFree_ignoring hpath _ _)

/-- **Ignoring paths leaves out the findings that lie there**, and changes no other. -/
theorem ofFields_ignoring {fields : List (String × FieldShape)}
    (hne : ∀ g ∈ fields, Path.child path g.1 ≠ "") {o : Owner} {old new : Table Node} :
    (ofFields rules o path old new fields).filter (fun f => outside tops f.place)
      = ofFields (rules.ignoring tops) o path old new fields :=
  fields_ignoring hne fun g _ => ofField_ignoring g.2

end Finding

end SnapshotDiff
