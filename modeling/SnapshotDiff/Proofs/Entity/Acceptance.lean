import SnapshotDiff.BuiltIn
import SnapshotDiff.Proofs.Entity.Locating
import SnapshotDiff.Proofs.Path

/-!
# Which snapshots are read

Reading a snapshot succeeds exactly if the snapshot is one of the family and conforms to its
shape.  Otherwise the error is at the root, at the least key that belongs to another family, or at
the first fault of the snapshot.

## Main definitions

* `Rules.Accepts`, `Rules.Refuses` — what is read, and where everything else is refused.

## Main results

* `Rules.Refuses.unique` — a snapshot is refused at one path only.
* `Rules.accepts_or_refuses` — **every snapshot is read or refused at one place.**
-/

namespace SnapshotDiff

open FieldShape

/-! ### Paths of faults -/

namespace Shape

/-- In every object of the shape the names of fields are not empty. -/
def isNamed (s : Shape) : Bool :=
  (FieldShape.object s.typeName s.fields).everyObject fun names => names.all (· ≠ "")

end Shape

/-- Where names are not empty, only the root has the empty path. -/
theorem Fault.pathOf_ne_empty {s : FieldShape} {v : Json} {p : List Step} (h : Fault s v p)
    (hs : s.everyObject fun names => names.all (· ≠ "")) :
    ∀ {base}, base ≠ "" ∨ p ≠ [] → Step.pathOf base p ≠ "" := by
  induction h with
  | here => exact fun hbase => hbase.resolve_right (absurd rfl)
  | @field _ name fields _ _ _ _ _ declared _ _ _ ih =>
    intro base _
    obtain ⟨hnames, hfields⟩ := everyObject_object.mp hs
    have hmem := List.mem_of_getElem? declared
    have hname : name ≠ "" := by
      simpa using List.all_eq_true.mp hnames name (List.mem_map.mpr ⟨_, hmem, rfl⟩)
    exact ih (hfields _ hmem) (Or.inl (Path.child_ne_empty hname base))
  | item declared _ _ _ ih =>
    intro base _
    exact ih (everyObject_element hs declared) (Or.inl (Path.item_ne_empty base _))

/-! ### Snapshots -/

namespace Rules

/-- The key marks a snapshot of another family. -/
def isForeign (rules : Rules) (key : String) : Bool :=
  !rules.shape.declares key && rules.foreign key

/-- An object without members, or with one that is declared, may be of the family. -/
def Recognizes (rules : Rules) (ms : Table Json) : Prop :=
  ms = [] ∨ ∃ key ∈ ms.keys, rules.shape.declares key

/-- The snapshot is absent, or it is an object of the family that conforms to the shape. -/
inductive Accepts (rules : Rules) : Option Json → Prop
  | absent : Accepts rules none
  | null : Accepts rules (some .null)
  | object {ms : Table Json} (recognized : rules.Recognizes ms)
    (own : ∀ key ∈ ms.keys, rules.isForeign key = false)
    (conforms : Conforms rules.root (.obj ms)) : Accepts rules (some (.obj ms))

/-- The snapshot is refused at the path: as a whole if it is no object or has nothing that is
declared, else at the least foreign key, else at the first fault. -/
inductive Refuses (rules : Rules) : Json → String → Prop
  | noObject {v : Json} (some : v ≠ .null) (other : v.members? = none) : Refuses rules v "<root>"
  | unrecognized {ms : Table Json} (h : ¬ rules.Recognizes ms) : Refuses rules (.obj ms) "<root>"
  | foreign {ms : Table Json} {key : String} (recognized : rules.Recognizes ms)
    (present : key ∈ ms.keys) (marked : rules.isForeign key)
    (least : ∀ other ∈ ms.keys, rules.isForeign other → key ≤ other) : Refuses rules (.obj ms) key
  | fault {ms : Table Json} {p : List Step} (recognized : rules.Recognizes ms)
    (own : ∀ key ∈ ms.keys, rules.isForeign key = false)
    (first : Fault.Earliest (Fault rules.root (.obj ms)) p) :
    Refuses rules (.obj ms) (Step.pathOf "" p)

/-- A snapshot is refused at one path only. -/
theorem Refuses.unique {rules : Rules} {v : Json} {path path' : String}
    (h : rules.Refuses v path) (h' : rules.Refuses v path') : path = path' := by
  cases h with
  | noObject _ other =>
    cases h' with
    | noObject => rfl
    | unrecognized | foreign | fault => simp at other
  | unrecognized h =>
    cases h' with
    | noObject | unrecognized => rfl
    | foreign recognized => exact absurd recognized h
    | fault recognized => exact absurd recognized h
  | foreign recognized present marked least =>
    cases h' with
    | noObject _ other => simp at other
    | unrecognized h' => exact absurd recognized h'
    | foreign _ present' marked' least' =>
      exact String.le_antisymm (least _ present' marked') (least' _ present marked)
    | fault _ own => rw [own _ present] at marked; exact absurd marked (by decide)
  | fault recognized own first =>
    cases h' with
    | noObject _ other => simp at other
    | unrecognized h' => exact absurd recognized h'
    | foreign _ present marked => rw [own _ present] at marked; exact absurd marked (by decide)
    | fault _ _ first' => rw [first.unique first']

variable {rules : Rules} {ms : Table Json}

theorem not_recognizes_iff :
    ¬ rules.Recognizes ms ↔ (!ms.isEmpty && !ms.keys.any rules.shape.declares) = true := by
  simp [Recognizes, not_or]

/-- The check of the family passes objects that may be of the family and have no foreign key. -/
theorem checkFamily_eq_ok_iff : Entity.checkFamily rules ms = .ok ()
    ↔ rules.Recognizes ms ∧ ∀ key ∈ ms.keys, rules.isForeign key = false := by
  unfold Entity.checkFamily
  dsimp only
  split
  · next h =>
    rw [← not_recognizes_iff] at h
    exact iff_of_false (by simp) fun hr => h hr.1
  · next h =>
    rw [← not_recognizes_iff, not_not] at h
    split
    · next key hfind =>
      refine iff_of_false (by simp) fun hr => ?_
      have hmarked : rules.isForeign key := List.find?_some hfind
      rw [hr.2 key (List.mem_of_find?_eq_some hfind)] at hmarked
      exact absurd hmarked (by decide)
    · next hfind =>
      rw [List.find?_eq_none] at hfind
      exact iff_of_true rfl ⟨h, fun key hkey => Bool.eq_false_iff.mpr (hfind key hkey)⟩

/-- Of ascending keys the first one that is found is the least one. -/
theorem le_of_find?_eq_some {q : String → Bool} {key : String} (hms : ms.Ascending)
    (h : ms.keys.find? q = some key) : ∀ other ∈ ms.keys, q other → key ≤ other := by
  obtain ⟨hkey, before, after, hsplit, hbefore⟩ := List.find?_eq_some_iff_append.mp h
  have hasc := Table.ascending_iff.mp hms
  rw [Table.keys] at hsplit
  rw [hsplit] at hasc
  intro other hother hq
  rw [Table.keys, hsplit] at hother
  rcases List.mem_append.mp hother with hmem | hmem
  · have hnot := hbefore other hmem
    rw [hq] at hnot
    exact absurd hnot (by decide)
  · rcases List.mem_cons.mp hmem with rfl | hmem
    · exact String.le_refl _
    · have hlt := (List.pairwise_cons.mp (List.pairwise_append.mp hasc).2.1).1 _ hmem
      exact String.not_lt.mp (String.lt_asymm hlt)

/-- The check of the family fails if nothing is declared, else at the least foreign key. -/
theorem checkFamily_spec (hms : ms.Ascending) (hforeign : rules.foreign "" = false) :
    (rules.Recognizes ms ∧ (∀ key ∈ ms.keys, rules.isForeign key = false)
        ∧ Entity.checkFamily rules ms = .ok ())
      ∨ ∃ path cause, Entity.checkFamily rules ms = .error (.mapping rules.family path cause)
        ∧ rules.Refuses (.obj ms) path
        ∧ ¬ (rules.Recognizes ms ∧ ∀ key ∈ ms.keys, rules.isForeign key = false) := by
  unfold Entity.checkFamily
  dsimp only
  split
  · next h =>
    rw [← not_recognizes_iff] at h
    exact Or.inr ⟨_, _, rfl, .unrecognized h, fun hr => h hr.1⟩
  · next h =>
    rw [← not_recognizes_iff, not_not] at h
    split
    · next key hfind =>
      have hmem := List.mem_of_find?_eq_some hfind
      have hmarked : rules.isForeign key := List.find?_some hfind
      have hkey : key ≠ "" := by
        rintro rfl
        rw [isForeign, hforeign, Bool.and_false] at hmarked
        exact absurd hmarked (by decide)
      refine Or.inr ⟨key, .foreignField rules.shape.typeName, ?_,
        .foreign h hmem hmarked (le_of_find?_eq_some hms hfind), fun hr => ?_⟩
      · rw [mismatch, DiffError.mismatch, if_neg hkey]
      · rw [hr.2 key hmem] at hmarked
        exact absurd hmarked (by decide)
    · next hfind =>
      rw [List.find?_eq_none] at hfind
      exact Or.inl ⟨h, fun key hkey => Bool.eq_false_iff.mpr (hfind key hkey), rfl⟩

/-- A snapshot that is taken as it is has its family checked before its fields are read. -/
theorem readRoot_eq_bind (hreshape : rules.reshape? = none) :
    Entity.readRoot rules (some (.obj ms)) = (Entity.checkFamily rules ms >>= fun _ =>
      Node.readFields rules.family "" ms [] rules.shape.fields) := by
  rw [Entity.readRoot, reshaped, hreshape]
  rfl

/-- Reading the fields of the root succeeds if the snapshot is accepted, otherwise fails where it
is refused. -/
theorem readRoot_spec {snapshot : Option Json} (hreshape : rules.reshape? = none)
    (hnames : rules.shape.isNamed) (hforeign : rules.foreign "" = false)
    (hcanonical : ∀ v ∈ snapshot, v.Canonical) (hbounded : ∀ v ∈ snapshot, v.Bounded) :
    (rules.Accepts snapshot ∧ ∃ root, Entity.readRoot rules snapshot = .ok root)
      ∨ (¬ rules.Accepts snapshot ∧ ∃ v path cause, snapshot = some v
        ∧ Entity.readRoot rules snapshot = .error (.mapping rules.family path cause)
        ∧ rules.Refuses v path) := by
  match snapshot with
  | none => exact Or.inl ⟨.absent, [], rfl⟩
  | some .null => exact Or.inl ⟨.null, [], rfl⟩
  | some (.bool _) | some (.int _) | some (.float _) | some (.str _) | some (.arr _) =>
    exact Or.inr ⟨fun h => (nomatch h), _, _, _, rfl, rfl, .noObject (by simp) rfl⟩
  | some (.obj ms) =>
    have hms := (Json.canonical_obj_iff.mp (hcanonical _ rfl)).1
    have hroot := @readRoot_eq_bind rules ms hreshape
    rcases checkFamily_spec hms hforeign with ⟨hrecognized, hown, hcheck⟩ |
      ⟨path, cause, hcheck, hrefuses, hnot⟩
    · have hfields : Locates rules.family "" (Node.FieldFaults ms 0 rules.shape.fields)
          (Node.readFields rules.family "" ms [] rules.shape.fields) :=
        Node.locates_readFields (fun f _ v hget => Node.locates_readField
          (Json.hereditary_bounded.member (hbounded _ rfl) hget) _) 0 []
      have hlocates : Locates rules.family "" (Fault rules.root (.obj ms))
          (Node.readFields rules.family "" ms [] rules.shape.fields) :=
        hfields.congr fun p => Node.fault_object_iff.symm
      rw [hroot, hcheck]
      cases hread : Node.readFields rules.family "" ms [] rules.shape.fields with
      | ok root =>
        have hconforms := Conforms.of_forall_not_fault (hlocates.none_of_ok root hread)
        exact Or.inl ⟨.object hrecognized hown hconforms, root, rfl⟩
      | error e =>
        obtain ⟨p, cause, rfl, hfirst⟩ := hlocates.first_of_error e hread
        have hpath : Step.pathOf "" p ≠ "" := by
          obtain ⟨a, q, rfl⟩ := hfirst.1.exists_cons rfl
          exact hfirst.1.pathOf_ne_empty hnames (Or.inr (by simp))
        refine Or.inr ⟨fun h => ?_, _, _, cause, rfl, ?_, .fault hrecognized hown hfirst⟩
        · cases h with
          | object _ _ conforms => exact conforms.not_fault p hfirst.1
        · rw [DiffError.mismatch, if_neg hpath]
          rfl
    · refine Or.inr ⟨fun h => ?_, _, path, cause, rfl, ?_, hrefuses⟩
      · cases h with
        | object recognized own _ => exact hnot ⟨recognized, own⟩
      · rw [hroot, hcheck]
        rfl

/-- **Every snapshot is read or refused at one place.**  Snapshots are taken as they are, and the
names of fields and the foreign keys are not empty.  Reading succeeds exactly if the snapshot is
accepted; otherwise the error is about the snapshot, at the path where it is refused. -/
theorem accepts_or_refuses {snapshot : Option Json} (hreshape : rules.reshape? = none)
    (hnames : rules.shape.isNamed) (hforeign : rules.foreign "" = false)
    (hcanonical : ∀ v ∈ snapshot, v.Canonical) (hbounded : ∀ v ∈ snapshot, v.Bounded) :
    ((∃ e, Entity.ofSnapshot rules snapshot = .ok e) ↔ rules.Accepts snapshot)
      ∧ (¬ rules.Accepts snapshot → ∃ v path cause, snapshot = some v
        ∧ Entity.ofSnapshot rules snapshot = .error (.mapping rules.family path cause)
        ∧ rules.Refuses v path) := by
  rcases readRoot_spec hreshape hnames hforeign hcanonical hbounded with
    ⟨haccepts, root, hroot⟩ | ⟨hnot, v, path, cause, hv, hroot, hrefuses⟩
  · exact ⟨iff_of_true ⟨_, Entity.ofSnapshot_eq_ok.mpr ⟨root, hroot, rfl⟩⟩ haccepts,
      fun h => absurd haccepts h⟩
  · have herror : Entity.ofSnapshot rules snapshot = .error (.mapping rules.family path cause) := by
      rw [Entity.ofSnapshot, hroot]
      rfl
    refine ⟨iff_of_false ?_ hnot, fun _ => ⟨v, path, cause, hv, herror, hrefuses⟩⟩
    rintro ⟨e, he⟩
    rw [herror] at he
    exact absurd he (by simp)

/-- An item with a text where a note has to have a truth value; a `null` stands before the note. -/
def misfit : Json :=
  .obj [("barcode", .str "1"), ("notes", .arr [.null, .obj [("staffOnly", .str "yes")]])]

theorem canonical_misfit : misfit.Canonical := by
  simp only [misfit, Json.Canonical, Json.CanonicalMembers, Json.CanonicalItems,
    Table.ascending_iff]
  decide

theorem bounded_misfit : misfit.Bounded := by
  simp [misfit, Json.Bounded, Json.BoundedMembers, Json.BoundedItems]

theorem refuses_misfit :
    Entity.ofSnapshot (builtIn .item) (some misfit)
        = .error (.mapping .item "notes[1].staffOnly" (.unexpected .boolean (.str "yes")))
      ∧ ¬ (builtIn .item).Accepts (some misfit)
      ∧ (builtIn .item).Refuses misfit "notes[1].staffOnly" := by
  have herror : Entity.ofSnapshot (builtIn .item) (some misfit)
      = .error (.mapping .item "notes[1].staffOnly" (.unexpected .boolean (.str "yes"))) := rfl
  have hreshape : (builtIn .item).reshape? = none := rfl
  obtain ⟨hiff, hrefused⟩ := accepts_or_refuses hreshape (by decide) (by decide)
    (fun v (hv : v ∈ some misfit) => Option.some.inj hv ▸ canonical_misfit)
    (fun v hv => Option.some.inj hv ▸ bounded_misfit)
  have hnot : ¬ (builtIn .item).Accepts (some misfit) := by
    rw [← hiff, herror]
    simp
  obtain ⟨v, path, cause, hv, h, hrefuses⟩ := hrefused hnot
  obtain rfl := Option.some.inj hv
  obtain ⟨-, rfl, -⟩ := DiffError.mapping.inj (Except.error.inj (herror.symm.trans h))
  exact ⟨herror, hnot, hrefuses⟩

end Rules

end SnapshotDiff
