import SnapshotDiff.BuiltIn
import SnapshotDiff.Proofs.Entity.Reading

/-!
# Default objects of the root

Where every default object is a field of the root, the root of an entity has an object under each of
their names, and is otherwise what was read.

## Main definitions

* `Rules.hasShallowDefaults` — every default object is a field of the root.
* `Rules.blank?` — what the entity of an absent snapshot has at a path.

## Main results

* `Entity.get?_defaults` — the fields of the root once the default objects have been created.
* `Entity.get?_root_of_absent` — **an absent snapshot has its default objects, empty.**
-/

namespace SnapshotDiff

namespace Rules

/-- Every default object is a field of the root. -/
def hasShallowDefaults (rules : Rules) : Bool :=
  rules.defaultObjects.all fun p => (rules.shape.object? p).isSome

/-- What the entity of an absent snapshot has at a path. -/
def blank? (rules : Rules) (path : String) : Option Node :=
  if rules.defaultObjects.contains path then some (.object []) else none

theorem hasShallowDefaults_builtIn (f : Family) : (builtIn f).hasShallowDefaults := by
  cases f <;> decide

variable {rules : Rules} {path : String}

/-- The paths of the default objects are names. -/
theorem notMem_of_mem_defaultObjects (hs : rules.shape.isAlphanumeric)
    (hshallow : rules.hasShallowDefaults) (hpath : path ∈ rules.defaultObjects) :
    '.' ∉ path.toList := by
  obtain ⟨child, hchild⟩ := Option.isSome_iff_exists.mp (List.all_eq_true.mp hshallow path hpath)
  exact notMem_of_alphanumeric (FieldShape.everyObject_object.mp hs).1
    (List.mem_map_of_mem (Node.mem_of_object?_eq_some hchild)) (by decide)

/-- No field of a nested object is a default object. -/
theorem contains_child_eq_false (hs : rules.shape.isAlphanumeric)
    (hshallow : rules.hasShallowDefaults) (hpath : path ≠ "") (name : String) :
    rules.defaultObjects.contains (Path.child path name) = false := by
  rw [List.contains_eq_mem, decide_eq_false_iff_not]
  intro hmem
  refine notMem_of_mem_defaultObjects hs hshallow hmem ?_
  rw [Path.child, if_neg hpath]
  simp

end Rules

namespace Entity

variable {rules : Rules} {root : Table Node}

/-- Where the root has nothing but objects, each of these names leads to an object or nowhere. -/
theorem get?_openDefault {shape : Shape} {path : String} (hpath : (shape.object? path).isSome)
    (hdot : '.' ∉ path.toList) (hroot : ∀ n ∈ root.get? path, ∃ fs, n = .object fs)
    (name : String) :
    (openDefault shape root path).get? name
      = if path = name then some ((root.get? path).getD (.object [])) else root.get? name := by
  have hsegments : Path.segments path = [path] := Text.pieces_of_not_mem hdot
  have hat : (shape.objectAt? path).isSome := by
    rw [Shape.objectAt?, hsegments, Shape.objectBelow?]
    obtain ⟨child, hchild⟩ := Option.isSome_iff_exists.mp hpath
    rw [hchild, Option.bind_some, Shape.objectBelow?]
    rfl
  rw [openDefault, if_pos hat, hsegments]
  cases hget : root.get? path with
  | none =>
    rw [Node.openObjects, hget]
    exact Table.get?_insert root path name _
  | some n =>
    obtain ⟨fs, rfl⟩ := hroot n hget
    rw [Node.openObjects, hget]
    exact Table.get?_insert root path name _

/-- The fields of the root once the default objects have been created. -/
theorem get?_defaults {shape : Shape} {paths : List String} :
    (∀ p ∈ paths, (shape.object? p).isSome ∧ '.' ∉ p.toList) → ∀ {root : Table Node},
      (∀ p ∈ paths, ∀ n ∈ root.get? p, ∃ fs, n = Node.object fs) → ∀ name,
        (paths.foldl (openDefault shape) root).get? name
          = if name ∈ paths then some ((root.get? name).getD (.object [])) else root.get? name := by
  induction paths with
  | nil => exact fun _ {root} _ name => by rw [List.foldl_nil, if_neg List.not_mem_nil]
  | cons path paths ih =>
    intro hpaths root hroot name
    obtain ⟨⟨hpath, hdot⟩, hrest⟩ := List.forall_mem_cons.mp hpaths
    obtain ⟨hhead, htail⟩ := List.forall_mem_cons.mp hroot
    have hstep := get?_openDefault hpath hdot hhead
    have hopened : ∀ p ∈ paths, ∀ n ∈ (openDefault shape root path).get? p,
        ∃ fs, n = Node.object fs := by
      intro p hp n hn
      rw [hstep] at hn
      split at hn
      · obtain rfl := Option.some.inj hn
        cases hget : root.get? path with
        | none => exact ⟨[], rfl⟩
        | some n => exact hhead n hget
      · exact htail p hp n hn
    rw [List.foldl_cons, ih hrest hopened, hstep]
    by_cases heq : path = name
    · subst heq
      rw [if_pos rfl, if_pos List.mem_cons_self]
      split <;> rfl
    · rw [if_neg heq]
      simp only [List.mem_cons, Ne.symm heq, false_or]

section Shallow

variable (hs : rules.shape.isAlphanumeric) (hshallow : rules.hasShallowDefaults)
include hs hshallow

theorem shallow_of_mem : ∀ p ∈ rules.defaultObjects,
    (rules.shape.object? p).isSome ∧ '.' ∉ p.toList :=
  fun p hp => ⟨List.all_eq_true.mp hshallow p hp,
    Rules.notMem_of_mem_defaultObjects hs hshallow hp⟩

/-- **An absent snapshot has its default objects, empty.** -/
theorem get?_root_of_absent {s : Option Json} {e : Entity} (habsent : s = none ∨ s = some .null)
    (h : ofSnapshot rules s = .ok e) (name : String) : e.root.get? name = rules.blank? name := by
  obtain ⟨root, hroot, rfl⟩ := ofSnapshot_eq_ok.mp h
  obtain rfl := Except.ok.inj ((readRoot_of_absent habsent).symm.trans hroot)
  rw [get?_defaults (shallow_of_mem hs hshallow) (by simp), Rules.blank?, List.contains_eq_mem]
  simp

/-- Any snapshot has its default objects. -/
theorem isSome_get?_root {s : Option Json} {e : Entity} (h : ofSnapshot rules s = .ok e)
    {name : String} (hname : rules.defaultObjects.contains name) : (e.root.get? name).isSome := by
  obtain ⟨root, hroot, rfl⟩ := ofSnapshot_eq_ok.mp h
  have hfits := fits_readRoot Json.hereditary_true hs (fun _ _ _ _ => trivial)
    (fun _ _ => trivial) hroot
  have hobjects : ∀ p ∈ rules.defaultObjects, ∀ n ∈ root.get? p, ∃ fs, n = Node.object fs := by
    intro p hp n hn
    obtain ⟨child, hchild⟩ :=
      Option.isSome_iff_exists.mp (shallow_of_mem hs hshallow p hp).1
    exact (hfits.field (Node.mem_of_object?_eq_some hchild) hn).exists_object
  rw [get?_defaults (shallow_of_mem hs hshallow) hobjects, if_pos (by simpa using hname)]
  rfl

end Shallow

end Entity

end SnapshotDiff
