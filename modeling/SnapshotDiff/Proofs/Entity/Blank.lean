import SnapshotDiff.Proofs.Entity.Rendered
import SnapshotDiff.Proofs.Independent

/-!
# Default objects that hold nothing

Where there is a default object, a snapshot may leave it out, or have `null` in its place, or an
object without any declared field: the entity is the same.  The roots that are read from two such
snapshots may differ on the way to the object, in which objects are there.  Creating objects on any
path keeps the roots that close, and creating those on the way makes them equal.

## Main definitions

* `Shape.IsBlank` — an object holds no field that the shape declares.
* `Snapshot.AgreeOutside` — two objects agree outside of a path, at which both are blank.
* `Node.AgreeTo` — what is left of that when they have been read.

## Main results

* `Node.exists_readFields_of_agreeOutside` — objects that agree outside of a path are both read.
* `Node.AgreeTo.openObjects` — creating objects keeps the tables close.
* `Entity.ofSnapshot_of_agreeOutside` — **what stands for an empty default object does not matter.**
-/

namespace SnapshotDiff

open FieldShape

/-! ### Snapshots -/

/-- The object holds no field that the shape declares. -/
def Shape.IsBlank (shape : Shape) (ms : Table Json) : Prop :=
  ∀ f ∈ shape.fields, ∀ v, ¬Node.Holds ms f.1 v

namespace Snapshot

/-- The object under a name, which is empty if there is nothing or `null`. -/
def objectIn? (ms : Table Json) (name : String) : Option (Table Json) :=
  match ms.get? name with
  | none | some .null => some []
  | some v => v.members?

/-- The objects agree outside of a path, at which both hold no field that the shape declares. -/
def AgreeOutside (shape : Shape) : List String → Table Json → Table Json → Prop
  | [], ms, ns => shape.IsBlank ms ∧ shape.IsBlank ns
  | name :: names, ms, ns => (∀ key, key ≠ name → ms.get? key = ns.get? key)
    ∧ ∃ ms' ns', objectIn? ms name = some ms' ∧ objectIn? ns name = some ns'
      ∧ AgreeOutside shape names ms' ns'

variable {ms ms' : Table Json} {name : String} {v : Json}

/-- What holds something under the name holds an object there. -/
theorem eq_obj_of_objectIn? (h : objectIn? ms name = some ms') (hv : Node.Holds ms name v) :
    v = .obj ms' := by
  obtain ⟨hget, hnull⟩ := hv
  rw [objectIn?, hget] at h
  cases v <;> simp_all [Json.members?]

theorem eq_nil_of_objectIn? (h : objectIn? ms name = some ms') (hv : ∀ v, ¬Node.Holds ms name v) :
    ms' = [] := by
  rw [objectIn?] at h
  split at h
  · exact (Option.some.inj h).symm
  · exact (Option.some.inj h).symm
  · next v hnull hget => exact absurd ⟨hget, fun h => hnull (h ▸ rfl)⟩ (hv v)

end Snapshot

namespace Node

open Snapshot (AgreeOutside)

variable {family : Family} {fs gs : Table Node} {name path : String} {names : List String}
  {fields : List (String × FieldShape)} {ms : Table Json}

/-! ### Tables of fields -/

/-- The object under a name, which is empty if there is nothing. -/
def objectIn? (fs : Table Node) (name : String) : Option (Table Node) :=
  match fs.get? name with
  | none => some []
  | some n => n.object?

/-- The tables agree but for the objects on a path, each of which may be missing on either side. -/
def AgreeTo : List String → Table Node → Table Node → Prop
  | [], fs, gs => fs = gs
  | name :: names, fs, gs => (∀ key, key ≠ name → fs.get? key = gs.get? key)
    ∧ ∃ fs' gs', objectIn? fs name = some fs' ∧ objectIn? gs name = some gs'
      ∧ AgreeTo names fs' gs'

theorem objectIn?_of_get? {inner : Table Node} (h : fs.get? name = some (.object inner)) :
    objectIn? fs name = some inner := by
  rw [objectIn?, h]
  rfl

/-- What is there under a name is the object. -/
theorem eq_object_of_objectIn? {inner : Table Node} {n : Node}
    (h : objectIn? fs name = some inner) (hget : fs.get? name = some n) : n = .object inner := by
  rw [objectIn?, hget] at h
  cases n <;> simp only [object?, Option.some.injEq, reduceCtorEq] at h
  rw [h]

/-- What stands for nothing is empty. -/
theorem eq_nil_of_objectIn? {inner : Table Node} (h : objectIn? fs name = some inner)
    (hget : fs.get? name = none) : inner = [] := by
  rw [objectIn?, hget] at h
  exact (Option.some.inj h).symm

/-- The object is there unless it is empty. -/
theorem get?_of_objectIn? {inner : Table Node} (h : objectIn? fs name = some inner)
    (hne : inner ≠ []) : fs.get? name = some (.object inner) := by
  cases hget : fs.get? name with
  | none => exact absurd (eq_nil_of_objectIn? h hget) hne
  | some n => rw [eq_object_of_objectIn? h hget]

theorem objectIn?_insert (inner : Table Node) :
    objectIn? (fs.insert name (.object inner)) name = some inner :=
  objectIn?_of_get? (by rw [Table.get?_insert, if_pos rfl])

/-- Creating the objects on a path goes on in the object under the first name. -/
theorem openObjects_cons {inner : Table Node} (h : objectIn? fs name = some inner) :
    (openObjects fs (name :: names)).1 = fs.insert name (.object (openObjects inner names).1) := by
  rw [openObjects]
  cases hget : fs.get? name with
  | none => rw [eq_nil_of_objectIn? h hget]
  | some n => rw [eq_object_of_objectIn? h hget]

/-- The object under a name that is declared as an object is settled. -/
theorem Settled.objectIn? {typeName typeName' : String} {fields' : List (String × FieldShape)}
    {inner : Table Node} (h : Settled (.object typeName fields) (.object fs))
    (hmem : (name, .object typeName' fields') ∈ fields)
    (hinner : Node.objectIn? fs name = some inner) :
    Settled (.object typeName' fields') (.object inner) := by
  rw [Node.objectIn?] at hinner
  split at hinner
  · exact Option.some.inj hinner ▸ .nil
  · next n hget =>
    obtain ⟨fs', rfl⟩ := (h.field hmem hget).exists_object
    exact Option.some.inj hinner ▸ h.field hmem hget

/-- Creating objects keeps the tables close. -/
theorem AgreeTo.openObjects : ∀ {names : List String} {fs gs : Table Node} {others : List String},
    AgreeTo names fs gs →
      AgreeTo names (Node.openObjects fs others).1 (Node.openObjects gs others).1 := by
  intro names
  induction names with
  | nil =>
    rintro fs _ others rfl
    rfl
  | cons name names ih =>
    intro fs gs others h
    cases others with
    | nil => exact h
    | cons other others =>
      obtain ⟨hother, fs', gs', hfs, hgs, h⟩ := h
      by_cases heq : other = name
      · subst heq
        rw [openObjects_cons hfs, openObjects_cons hgs]
        refine ⟨fun key hkey => ?_, _, _, objectIn?_insert _, objectIn?_insert _, ih h⟩
        rw [Table.get?_insert, Table.get?_insert, if_neg (Ne.symm hkey), if_neg (Ne.symm hkey),
          hother key hkey]
      · refine ⟨fun key hkey => Entity.get?_openObjects_congr (hother key hkey) _, fs', gs', ?_, ?_,
          h⟩
        · rwa [objectIn?, get?_openObjects_of_ne heq]
        · rwa [objectIn?, get?_openObjects_of_ne heq]

/-- Creating the objects on the path makes the tables equal. -/
theorem AgreeTo.openObjects_eq : ∀ {names : List String} {shape : Shape} {fs gs : Table Node},
    AgreeTo names fs gs → (shape.objectBelow? names).isSome →
      Settled (.object shape.typeName shape.fields) (.object fs) →
      Settled (.object shape.typeName shape.fields) (.object gs) →
        (Node.openObjects fs names).1 = (Node.openObjects gs names).1 := by
  intro names
  induction names with
  | nil => exact fun h _ _ _ => h
  | cons name names ih =>
    intro shape fs gs h hbelow hsettled hsettled'
    obtain ⟨hother, fs', gs', hfs, hgs, h⟩ := h
    obtain ⟨child, hmem, hbelow'⟩ := exists_child_of_objectBelow? hbelow
    rw [openObjects_cons hfs, openObjects_cons hgs,
      ih h hbelow' (hsettled.objectIn? hmem hfs) (hsettled'.objectIn? hmem hgs)]
    refine Table.eq_of_get? (Table.ascending_insert hsettled.ascending _ _)
      (Table.ascending_insert hsettled'.ascending _ _) fun key => ?_
    rw [Table.get?_insert, Table.get?_insert]
    split
    · rfl
    · next hne => exact hother key (Ne.symm hne)

/-! ### Reading -/

/-- Of an object that holds no declared field nothing is read. -/
theorem readFields_eq_nil (h : ∀ f ∈ fields, ∀ v, ¬Holds ms f.1 v) :
    readFields family path ms [] fields = .ok [] := by
  induction fields with
  | nil => rw [readFields]
  | cons f fields ih =>
    obtain ⟨name, s⟩ := f
    obtain ⟨hname, hrest⟩ := List.forall_mem_cons.mp h
    rw [readFields_cons_of_not_holds hname, ih hrest]

/-- The object under a name is read from the object that the snapshot has there. -/
theorem objectIn?_of_readFields {typeName : String} {fields' : List (String × FieldShape)}
    {ms' : Table Json} (hnames : (fields.map Prod.fst).Nodup)
    (hmem : (name, .object typeName fields') ∈ fields)
    (hread : readFields family path ms [] fields = .ok fs)
    (hms : Snapshot.objectIn? ms name = some ms') :
    ∃ fs', readFields family (Path.child path name) ms' [] fields' = .ok fs'
      ∧ objectIn? fs name = some fs' := by
  obtain ⟨-, habsent, hpresent⟩ := readFields_spec hnames hread List.Pairwise.nil
  by_cases hheld : ∃ v, Holds ms name v
  · obtain ⟨v, hv⟩ := hheld
    obtain rfl := Snapshot.eq_obj_of_objectIn? hms hv
    obtain ⟨n, hn, hget⟩ := hpresent name _ _ hmem hv
    obtain ⟨_, fs', hobj, hfs', rfl⟩ := readField_object_eq_ok.mp hn
    obtain rfl := Json.obj.inj hobj
    exact ⟨fs', hfs', objectIn?_of_get? hget⟩
  · rw [not_exists] at hheld
    obtain rfl := Snapshot.eq_nil_of_objectIn? hms hheld
    refine ⟨[], readFields_eq_nil fun _ _ _ hv => ?_, ?_⟩
    · exact absurd hv.1 (by simp)
    · rw [objectIn?, habsent name fun _ v _ => hheld v, Table.get?_nil]

/-- **Objects that agree outside of a path are both read**, and what is read agrees, but for the
objects on the path. -/
theorem exists_readFields_of_agreeOutside {found : Shape} : ∀ {names : List String} {shape : Shape}
    {ms ns : Table Json} {path : String} {fs : Table Node}, shape.hasDistinctNames →
      shape.objectBelow? names = some found → AgreeOutside found names ms ns →
      readFields family path ms [] shape.fields = .ok fs →
        ∃ gs, readFields family path ns [] shape.fields = .ok gs ∧ AgreeTo names fs gs := by
  intro names
  induction names with
  | nil =>
    rintro shape ms ns path fs _ hfound ⟨hms, hns⟩ hread
    obtain rfl := Option.some.inj hfound
    rw [readFields_eq_nil hms] at hread
    exact ⟨[], readFields_eq_nil hns, (Except.ok.inj hread).symm⟩
  | cons name names ih =>
    rintro shape ms ns path fs hs hfound ⟨hother, ms', ns', hms, hns, h⟩ hread
    obtain ⟨hnames, hfields⟩ := everyObject_object.mp hs
    have hnodup := of_decide_eq_true hnames
    obtain ⟨child, hchild, hfound'⟩ := Option.bind_eq_some_iff.mp hfound
    have hmem := mem_of_object?_eq_some hchild
    obtain ⟨fs', hfs', hin⟩ := objectIn?_of_readFields hnodup hmem hread hms
    obtain ⟨gs', hgs', hagree⟩ := ih (hfields _ hmem) hfound' h hfs'
    obtain ⟨-, habsent, hpresent⟩ := readFields_spec hnodup hread List.Pairwise.nil
    -- the other fields are read as before, and the one on the path is an object that is read
    obtain ⟨gs, hgs⟩ : ∃ gs, readFields family path ns [] shape.fields = .ok gs := by
      refine exists_readFields (fun key s v hs hv => ?_) []
      by_cases hkey : key = name
      · subst hkey
        obtain rfl := List.eq_of_nodup_keys hnodup hs hmem
        obtain rfl := Snapshot.eq_obj_of_objectIn? hns hv
        exact ⟨_, readField_object_eq_ok.mpr ⟨_, _, rfl, hgs', rfl⟩⟩
      · obtain ⟨n, hn, -⟩ := hpresent key s v hs ⟨(hother key hkey).trans hv.1, hv.2⟩
        exact ⟨n, hn⟩
    obtain ⟨gs'', hgs'', hin'⟩ := objectIn?_of_readFields hnodup hmem hgs hns
    obtain rfl := Except.ok.inj (hgs''.symm.trans hgs')
    obtain ⟨-, habsent', hpresent'⟩ := readFields_spec hnodup hgs List.Pairwise.nil
    refine ⟨gs, hgs, fun key hkey => ?_, fs', gs'', hin, hin', hagree⟩
    by_cases hheld : ∃ s v, (key, s) ∈ shape.fields ∧ Holds ms key v
    · obtain ⟨s, v, hs, hv⟩ := hheld
      obtain ⟨n, hn, hget⟩ := hpresent key s v hs hv
      obtain ⟨n', hn', hget'⟩ := hpresent' key s v hs ⟨(hother key hkey).symm.trans hv.1, hv.2⟩
      obtain rfl := Except.ok.inj (hn.symm.trans hn')
      rw [hget, hget']
    · rw [habsent key fun s v hs hv => hheld ⟨s, v, hs, hv⟩,
        habsent' key fun s v hs hv => hheld ⟨s, v, hs, (hother key hkey).trans hv.1, hv.2⟩]

end Node

/-! ### Entities -/

namespace Entity

open Node (AgreeTo Settled)
open Snapshot (AgreeOutside)

variable {rules : Rules} {root root' : Table Node} {path : String}

/-- Once the default object at the path has been created, both roots are the same. -/
theorem foldl_openDefault_eq {paths : List String} (hs : rules.shape.hasDistinctNames)
    (hat : (rules.shape.objectAt? path).isSome) (hmem : path ∈ paths) :
    ∀ {root root' : Table Node}, AgreeTo (Path.segments path) root root' →
      Settled rules.root (.object root) → Settled rules.root (.object root') →
        paths.foldl (openDefault rules.shape) root =
          paths.foldl (openDefault rules.shape) root' := by
  induction paths with
  | nil => exact absurd hmem List.not_mem_nil
  | cons other paths ih =>
    intro root root' h hroot hroot'
    rw [List.foldl_cons, List.foldl_cons]
    by_cases heq : other = path
    · subst heq
      rw [openDefault, if_pos hat, openDefault, if_pos hat, h.openObjects_eq hat hroot hroot']
    · have hrest : path ∈ paths := (List.mem_cons.mp hmem).resolve_left (Ne.symm heq)
      refine ih hrest ?_ (settled_openDefault hs other hroot).2
        (settled_openDefault hs other hroot').2
      unfold openDefault
      split
      · exact h.openObjects
      · exact h

/-- **What stands for an empty default object does not matter.**  Two snapshots, in the layout of
the shape, agree outside of the path of a default object, where both have nothing, `null`, or an
object without any declared field.  If the first is read and the second passes the check of the
family, the second is read as the same entity. -/
theorem ofSnapshot_of_agreeOutside {found : Shape} {raw raw' ms ns : Table Json} {e : Entity}
    (hs : rules.shape.hasDistinctNames) (hpath : path ∈ rules.defaultObjects)
    (hat : rules.shape.objectAt? path = some found) (hms : rules.reshaped raw = .ok ms)
    (hns : rules.reshaped raw' = .ok ns) (h : AgreeOutside found (Path.segments path) ms ns)
    (hcheck : checkFamily rules ns = .ok ()) (he : ofSnapshot rules (some (.obj raw)) = .ok e) :
    ofSnapshot rules (some (.obj raw')) = .ok e := by
  obtain ⟨root, hroot, rfl⟩ := ofSnapshot_eq_ok.mp he
  rcases readRoot_eq_ok.mp hroot with ⟨habsent, -⟩ | ⟨raw, out, hraw, hout, -, hread⟩
  · simp at habsent
  obtain rfl := Json.obj.inj (Option.some.inj hraw)
  obtain rfl := Except.ok.inj (hms.symm.trans hout)
  obtain ⟨root', hread', hagree⟩ := Node.exists_readFields_of_agreeOutside hs hat h hread
  have hroot' : readRoot rules (some (.obj raw')) = .ok root' :=
    readRoot_eq_ok.mpr (Or.inr ⟨raw', ns, rfl, hns, hcheck, hread'⟩)
  refine ofSnapshot_eq_ok.mpr ⟨root', hroot', ?_⟩
  rw [foldl_openDefault_eq hs (Option.isSome_iff_exists.mpr ⟨found, hat⟩) hpath hagree
    (settled_readRoot hs hroot) (settled_readRoot hs hroot')]

end Entity

end SnapshotDiff
