import SnapshotDiff.Proofs.BuiltIn.Layout
import SnapshotDiff.Proofs.BuiltIn.Rearranged
import SnapshotDiff.Proofs.Comparison
import SnapshotDiff.Proofs.Entity.Acceptance

/-!
# What the wrapping of a record hides

A snapshot that has a member of another family is refused, and so is a record that states the
type of the other family of records.  For a wrapped record the two are looked for in different
places: the members of other families in the content only, the record type on the wrapping only.
What stands in the other place goes unnoticed.

## Main definitions

* `Marc.wrapped?` — the content of a wrapped record.
* `Family.told` — the members by which the family of a snapshot is told.
* `Marc.unseenType?` — a record type that is not looked at.

## Main results

* `Rules.refuses_marked` — a snapshot is refused if one of the members by which its family is told
  belongs to another family, and the other members of a wrapping make no difference.
* `Rules.isOfType_iff_nothingUnseen` — an entity states no other record type than that of its family
  exactly if the content of its record does not state one out of sight.
* `Rules.recordType_of_compared` — the same of the two records that a comparison is about.
-/

namespace SnapshotDiff

namespace Marc

variable {family : Family} {raw out : Table Json}

/-! ### Wrappings -/

/-- The members of the content of a wrapped record. -/
def wrapped? (raw : Table Json) : Option (Table Json) :=
  (raw.get? "parsedRecord").bind fun parsed => (parsed.member? "content").bind Json.members?

theorem content_of_wrapped?_eq_some {members : Table Json} (h : wrapped? raw = some members) :
    content family raw = .ok members := by
  obtain ⟨parsed, hparsed, hmembers⟩ := Option.bind_eq_some_iff.mp h
  rw [content.eq_def, hparsed]
  cases parsed with
  | obj ms =>
    dsimp only
    rw [hmembers]
  | _ => simp [Json.member?, Json.members?] at hmembers

/-- What is read as the record is the content of a wrapped record, and a bare record itself. -/
theorem eq_of_content {members : Table Json} (h : content family raw = .ok members) :
    members = (wrapped? raw).getD raw := by
  unfold content at h
  unfold wrapped?
  split at h
  · next hnone => rw [hnone, ← Except.ok.inj h, Option.bind_none, Option.getD_none]
  · next hnull =>
    rw [hnull, ← Except.ok.inj h]
    rfl
  · next parsed _ hparsed =>
    rw [hparsed, Option.bind_some]
    split at h
    · next ms hms => rw [hms, ← Except.ok.inj h, Option.getD_some]
    · exact absurd h (by simp)

/-- The flat layout of a record has the members of what is read as the record, apart from the
fields and from the type that the wrapping states. -/
theorem get?_reshape (h : reshape family raw = .ok out) {key : String} (hkey : key ≠ "fields") :
    out.get? key = if key = "recordType" ∧ raw.contains "recordType"
      then raw.get? "recordType" else ((wrapped? raw).getD raw).get? key := by
  obtain ⟨-, -, h⟩ := Except.bind_eq_ok.mp h
  obtain ⟨members, hmembers, h⟩ := Except.bind_eq_ok.mp h
  rw [← eq_of_content hmembers]
  extract_lets typed at h
  have htyped : typed.get? key = if key = "recordType" ∧ raw.contains "recordType"
      then raw.get? "recordType" else members.get? key := by
    unfold typed
    rw [Table.contains]
    cases hstated : raw.get? "recordType" with
    | none =>
      rw [Option.isSome_none, if_neg (by simp), Table.get?_erase, if_neg (Ne.symm hkey)]
    | some v =>
      by_cases htype : key = "recordType"
      · rw [Table.get?_insert, if_pos htype.symm, if_pos ⟨htype, rfl⟩]
      · rw [Table.get?_insert, if_neg (Ne.symm htype), if_neg fun hand => htype hand.1,
          Table.get?_erase, if_neg (Ne.symm hkey)]
  -- whatever becomes of the fields, it is put under their own name
  split at h
  · obtain ⟨ws, -, h⟩ := Except.bind_eq_ok.mp h
    rw [← Except.ok.inj h, Table.get?_insert, if_neg (Ne.symm hkey), htyped]
  · rw [← Except.ok.inj h, Table.get?_insert, if_neg (Ne.symm hkey), htyped]
  · rw [← Except.ok.inj h, htyped]

/-- Only two members of a wrapping are looked at. -/
theorem reshape_erase (hwrapped : (wrapped? raw).isSome) {key : String}
    (hparsed : key ≠ "parsedRecord") (htype : key ≠ "recordType") :
    reshape family (raw.erase key) = reshape family raw := by
  obtain ⟨members, hmembers⟩ := Option.isSome_iff_exists.mp hwrapped
  have herased : wrapped? (raw.erase key) = some members := by
    rw [wrapped?, Table.get?_erase, if_neg hparsed]
    exact hmembers
  rw [reshape, reshape, checkRecordType, checkRecordType, content_of_wrapped?_eq_some hmembers,
    content_of_wrapped?_eq_some herased, Table.get?_erase, if_neg htype]

/-! ### Faults of records -/

theorem exists_mapping_of_flatFields {vs : List Json} {i : Nat} {e : DiffError}
    (h : flatFields family i vs = .error e) : ∃ path cause, e = .mapping family path cause := by
  induction vs generalizing i with
  | nil => simp [flatFields] at h
  | cons v vs ih =>
    by_cases hnull : v = .null
    · rw [hnull, flatFields] at h
      exact ih h
    · rw [flatFields] at h
      · split at h
        · exact ⟨_, _, (Except.error.inj h).symm⟩
        · cases hrest : flatFields family (i + 1) vs with
          | ok ws => simp [hrest, Except.map] at h
          | error e' =>
            rw [hrest] at h
            obtain rfl := Except.error.inj h
            exact ih hrest
      · exact hnull

/-- A record that has no flat layout is refused as one of its family. -/
theorem exists_mapping_of_reshape {e : DiffError} (h : reshape family raw = .error e) :
    ∃ path cause, e = .mapping family path cause := by
  rcases Except.bind_eq_error.mp h with h | ⟨_, -, h⟩
  · unfold checkRecordType at h
    split at h
    · exact absurd h (by simp)
    · exact absurd h (by simp)
    · split at h
      · exact absurd h (by simp)
      · exact ⟨_, _, (Except.error.inj h).symm⟩
  · rcases Except.bind_eq_error.mp h with h | ⟨members, -, h⟩
    · unfold content at h
      split at h
      · exact absurd h (by simp)
      · exact absurd h (by simp)
      · split at h
        · exact absurd h (by simp)
        · exact ⟨_, _, (Except.error.inj h).symm⟩
    · dsimp only at h
      split at h
      · rcases Except.bind_eq_error.mp h with h | ⟨_, -, h⟩
        · exact exists_mapping_of_flatFields h
        · exact absurd h (by simp [pure, Except.pure])
      · exact absurd h (by simp [pure, Except.pure])
      · exact absurd h (by simp [pure, Except.pure])

end Marc

/-! ### Members of other families -/

/-- The members by which the family of a snapshot is told: those of the content of a wrapped
record, and otherwise its own. -/
def Family.told (f : Family) (ms : Table Json) : Table Json :=
  if f.isMarc then (Marc.wrapped? ms).getD ms else ms

namespace Rules

variable {rules : Rules} {ms : Table Json} {f : Family}

/-- The check of the family stops at a foreign key. -/
theorem checkFamily_of_isForeign {key : String} (hkey : key ∈ ms.keys)
    (hforeign : rules.isForeign key) :
    ∃ path cause, Entity.checkFamily rules ms = .error (.mapping rules.family path cause) := by
  cases hcheck : Entity.checkFamily rules ms with
  | ok =>
    have hnot := (checkFamily_eq_ok_iff.mp hcheck).2 key hkey
    rw [hforeign] at hnot
    exact absurd hnot (by decide)
  | error e =>
    unfold Entity.checkFamily at hcheck
    dsimp only at hcheck
    split at hcheck
    · exact ⟨_, _, hcheck.symm⟩
    · split at hcheck
      · exact ⟨_, _, hcheck.symm⟩
      · exact absurd hcheck (by simp)

/-- Among the built-in rules those of the records rearrange snapshots, and no others. -/
theorem reshaped_builtIn (f : Family) (ms : Table Json) :
    (builtIn f).reshaped ms = if f.isMarc then Marc.reshape f ms else .ok ms := by
  cases f <;> rfl

theorem isForeign_builtIn (f : Family) (key : String) :
    (builtIn f).isForeign key = (!(builtIn f).shape.declares key && f.marksOther key) := by
  cases f <;> rfl

/-- The layout of the shape keeps what marks a snapshot of another family. -/
theorem mem_keys_of_reshaped {out : Table Json} (h : (builtIn f).reshaped ms = .ok out)
    {key : String} (hkey : key ∈ (f.told ms).keys)
    (hdeclared : (builtIn f).shape.declares key = false) : key ∈ out.keys := by
  rw [reshaped_builtIn] at h
  unfold Family.told at hkey
  split at h
  · next hmarc =>
    -- the keys that are dropped or taken from the wrapping are declared
    have hown : key ≠ "fields" ∧ key ≠ "recordType" := by
      constructor <;> rintro rfl <;> revert hdeclared hmarc <;> cases f <;> decide
    rw [if_pos hmarc, ← Table.get?_isSome_iff_mem] at hkey
    rw [← Table.get?_isSome_iff_mem, Marc.get?_reshape h hown.1, if_neg fun hand => hown.2 hand.1]
    exact hkey
  · next hmarc =>
    rw [if_neg hmarc] at hkey
    exact Except.ok.inj h ▸ hkey

/-- A snapshot with a member that marks another family is refused. -/
theorem ofSnapshot_of_marksOther {key : String} (hkey : key ∈ (f.told ms).keys)
    (hdeclared : (builtIn f).shape.declares key = false) (hmarks : f.marksOther key) :
    ∃ path cause, Entity.ofSnapshot (builtIn f) (some (.obj ms))
      = .error (.mapping f path cause) := by
  have hroot : ∃ path cause, Entity.readRoot (builtIn f) (some (.obj ms))
      = .error (.mapping f path cause) := by
    rw [Entity.readRoot]
    cases hout : (builtIn f).reshaped ms with
    | error e =>
      have hfault := hout
      rw [reshaped_builtIn] at hfault
      split at hfault
      · obtain ⟨path, cause, rfl⟩ := Marc.exists_mapping_of_reshape hfault
        exact ⟨path, cause, rfl⟩
      · exact absurd hfault (by simp)
    | ok out =>
      have hforeign : (builtIn f).isForeign key := by
        rw [isForeign_builtIn, hdeclared, hmarks]
        rfl
      obtain ⟨path, cause, hcheck⟩ :=
        checkFamily_of_isForeign (mem_keys_of_reshaped hout hkey hdeclared) hforeign
      rw [family_builtIn] at hcheck
      exact ⟨path, cause, Except.bind_eq_error.mpr (Or.inr ⟨out, rfl,
        Except.bind_eq_error.mpr (Or.inl hcheck)⟩)⟩
  obtain ⟨path, cause, hroot⟩ := hroot
  exact ⟨path, cause, Except.bind_eq_error.mpr (Or.inl hroot)⟩

/-- **A snapshot is refused if its family is told to be another one.**  If one of the members by
which the family of a snapshot is told is not declared and marks another family, then the snapshot
cannot be read, and no comparison with it succeeds on either side.  Of a wrapping nothing is told:
whatever it has beside the record and the record's type makes no difference. -/
theorem refuses_marked (f : Family) (ms : Table Json) :
    (∀ key ∈ (f.told ms).keys, (builtIn f).shape.declares key = false → f.marksOther key →
      ∃ path cause, Entity.ofSnapshot (builtIn f) (some (.obj ms)) = .error (.mapping f path cause)
        ∧ (∀ new, (builtIn f).diff (some (.obj ms)) new = .error (.mapping f path cause))
        ∧ ∀ old, (∃ e, (builtIn f).diff old (some (.obj ms)) = .error e)
          ∧ ∀ o, Entity.ofSnapshot (builtIn f) old = .ok o →
            (builtIn f).diff old (some (.obj ms)) = .error (.mapping f path cause))
      ∧ (f.isMarc → (Marc.wrapped? ms).isSome → ∀ key, key ≠ "parsedRecord" → key ≠ "recordType" →
        Entity.ofSnapshot (builtIn f) (some (.obj (ms.erase key)))
          = Entity.ofSnapshot (builtIn f) (some (.obj ms))) := by
  constructor
  · intro key hkey hdeclared hmarks
    obtain ⟨path, cause, hrefused⟩ := ofSnapshot_of_marksOther hkey hdeclared hmarks
    refine ⟨path, cause, hrefused, fun new => diff_eq_error.mpr (Or.inl hrefused), fun old => ?_⟩
    have hsecond : ∀ o, Entity.ofSnapshot (builtIn f) old = .ok o →
        (builtIn f).diff old (some (.obj ms)) = .error (.mapping f path cause) :=
      fun o ho => diff_eq_error.mpr (Or.inr ⟨o, ho, hrefused⟩)
    refine ⟨?_, hsecond⟩
    cases hold : Entity.ofSnapshot (builtIn f) old with
    | ok o => exact ⟨_, hsecond o hold⟩
    | error e => exact ⟨e, diff_eq_error.mpr (Or.inl hold)⟩
  · intro hmarc hwrapped key hparsed htype
    have hreshaped : (builtIn f).reshaped (ms.erase key) = (builtIn f).reshaped ms := by
      rw [reshaped_builtIn, reshaped_builtIn, if_pos hmarc, if_pos hmarc,
        Marc.reshape_erase hwrapped hparsed htype]
    rw [Entity.ofSnapshot, Entity.ofSnapshot, Entity.readRoot, Entity.readRoot, hreshaped]

/-- A wrapped bibliographic record with the title of an instance in its content, and one with it
beside the content. -/
def Marc.titled (content wrapping : Table Json) : Table Json :=
  ("parsedRecord", .obj [("content", .obj (("leader", .str "x") :: content))]) :: wrapping

theorem refuses_marked_titled :
    (∃ path cause, Entity.ofSnapshot (builtIn .marcBib)
        (some (.obj (Marc.titled [("title", .str "A")] [])))
          = .error (.mapping .marcBib path cause))
      ∧ Entity.ofSnapshot (builtIn .marcBib)
          (some (.obj ((Marc.titled [] [("title", .str "A")]).erase "title")))
        = Entity.ofSnapshot (builtIn .marcBib)
          (some (.obj (Marc.titled [] [("title", .str "A")]))) := by
  constructor
  · obtain ⟨path, cause, hrefused, -, -⟩ :=
      (refuses_marked .marcBib (Marc.titled [("title", .str "A")] [])).1 "title"
        (by decide) (by decide) (by decide)
    exact ⟨path, cause, hrefused⟩
  · exact (refuses_marked .marcBib (Marc.titled [] [("title", .str "A")])).2 rfl rfl "title"
      (by decide) (by decide)

end Rules

/-! ### Types of records -/

/-- The record type that an entity states. -/
def Entity.recordType? (e : Entity) : Option Json := (e.root.get? "recordType").map Node.json

/-- The entity states no other record type than that of the family. -/
def Entity.IsOfType (f : Family) (e : Entity) : Prop :=
  ∀ t, e.recordType? = some t → t = .str (Marc.recordType f)

/-- A record type that is out of sight: that of the content of a wrapped record, where the
wrapping has none. -/
def Marc.unseenType? (snapshot : Option Json) : Option Json :=
  (snapshot.bind Json.members?).bind fun raw =>
    if raw.contains "recordType" then none
    else (wrapped? raw).bind (Table.get? · "recordType")

/-- The record type out of sight, if there is one, is that of the family. -/
def Marc.NothingUnseen (f : Family) (snapshot : Option Json) : Prop :=
  ∀ t, unseenType? snapshot = some t → t = .null ∨ t = .str (recordType f)

namespace Rules

variable {f : Family} {snapshot : Option Json} {e : Entity}

theorem root_builtIn_of_isMarc (hmarc : f.isMarc) :
    (builtIn f).shape = Marc.shape ∧ (builtIn f).defaultObjects = [] := by
  cases f with
  | marcBib | marcAuthority => exact ⟨rfl, rfl⟩
  | item | holdings | inventoryInstance | user => exact absurd hmarc (by decide)

/-- The record type that an entity states is that of the members that were read, unless it is
`null` there. -/
theorem get?_recordType_of_readFields {members : Table Json} {root : Table Node}
    (h : Node.readFields f "" members [] Marc.shape.fields = .ok root) :
    (root.get? "recordType").map Node.json
      = (members.get? "recordType").filter fun v => !v.isNull :=
  Node.get?_leaf_of_readFields (by decide)
    (show ("recordType", FieldShape.leaf .string) ∈ Marc.shape.fields from List.mem_cons_self) h

/-- The record type that an entity states is that of the wrapping, or else that of the content. -/
theorem recordType?_of_ofSnapshot (hmarc : f.isMarc) {raw : Table Json}
    (h : Entity.ofSnapshot (builtIn f) (some (.obj raw)) = .ok e) :
    Marc.checkRecordType f raw = .ok () ∧ e.recordType?
      = ((if raw.contains "recordType" then raw.get? "recordType"
        else ((Marc.wrapped? raw).getD raw).get? "recordType").filter fun v => !v.isNull) := by
  obtain ⟨hshape, hdefaults⟩ := root_builtIn_of_isMarc hmarc
  obtain ⟨root, hroot, rfl⟩ := Entity.ofSnapshot_eq_ok.mp h
  rw [Entity.recordType?, hdefaults, List.foldl_nil]
  rcases Entity.readRoot_eq_ok.mp hroot with ⟨habsent, -⟩ | ⟨ms, out, hms, hout, -, hread⟩
  · simp at habsent
  · obtain rfl := Json.obj.inj (Option.some.inj hms)
    rw [reshaped_builtIn, if_pos hmarc] at hout
    rw [hshape] at hread
    obtain ⟨_, hcheck, -⟩ := Except.bind_eq_ok.mp hout
    refine ⟨hcheck, ?_⟩
    rw [get?_recordType_of_readFields hread, Marc.get?_reshape hout (by decide)]
    simp only [true_and]

/-- The check of the record type passes no other type than that of the family. -/
theorem eq_of_checkRecordType {raw : Table Json} (h : Marc.checkRecordType f raw = .ok ())
    {v : Json} (hv : raw.get? "recordType" = some v) :
    v = .null ∨ v = .str (Marc.recordType f) := by
  unfold Marc.checkRecordType at h
  split at h
  · next hnone => exact absurd (hnone.symm.trans hv) (by simp)
  · next hnull => exact Or.inl (Option.some.inj (hv.symm.trans hnull))
  · next w _ hw =>
    obtain rfl := Option.some.inj (hv.symm.trans hw)
    split at h
    · next htext =>
      cases v with
      | str s => exact Or.inr (congrArg _ (Option.some.inj htext))
      | _ => simp [Json.text?] at htext
    · exact absurd h (by simp)

/-- A record type that is out of sight is that of the entity. -/
theorem recordType?_of_unseenType? (hmarc : f.isMarc)
    (h : Entity.ofSnapshot (builtIn f) snapshot = .ok e) {t : Json}
    (ht : Marc.unseenType? snapshot = some t) (hnull : t ≠ .null) : e.recordType? = some t := by
  obtain ⟨raw, hraw, ht⟩ := Option.bind_eq_some_iff.mp ht
  obtain ⟨v, rfl, hv⟩ := Option.bind_eq_some_iff.mp hraw
  cases v with
  | obj ms =>
    obtain rfl := Option.some.inj hv
    split at ht
    · exact absurd ht (by simp)
    · next hstated =>
      obtain ⟨members, hmembers, hget⟩ := Option.bind_eq_some_iff.mp ht
      have hkept : (!t.isNull) = true := by
        rwa [Bool.not_eq_true', ← Bool.not_eq_true, Json.isNull_eq_true_iff]
      rw [(recordType?_of_ofSnapshot hmarc h).2, if_neg hstated, hmembers, Option.getD_some, hget,
        Option.filter_some, if_pos hkept]
  | _ => simp [Json.members?] at hv

/-- A record type that an entity states is that of the family, or it was out of sight. -/
theorem eq_or_unseenType?_of_recordType? (hmarc : f.isMarc)
    (h : Entity.ofSnapshot (builtIn f) snapshot = .ok e) {t : Json} (ht : e.recordType? = some t) :
    t = .str (Marc.recordType f) ∨ Marc.unseenType? snapshot = some t ∧ t ≠ .null := by
  obtain ⟨root, hroot, he⟩ := Entity.ofSnapshot_eq_ok.mp h
  rcases Entity.readRoot_eq_ok.mp hroot with ⟨-, rfl⟩ | ⟨raw, -, rfl, -, -, -⟩
  · rw [he, Entity.recordType?, (root_builtIn_of_isMarc hmarc).2] at ht
    simp at ht
  · obtain ⟨hcheck, htype⟩ := recordType?_of_ofSnapshot hmarc h
    obtain ⟨hget, hkept⟩ := Option.filter_eq_some_iff.mp (htype.symm.trans ht)
    have hnull : t ≠ .null := by
      rintro rfl
      exact absurd hkept (by decide)
    split at hget
    · exact Or.inl ((eq_of_checkRecordType hcheck hget).resolve_left hnull)
    · next hstated =>
      refine Or.inr ⟨?_, hnull⟩
      rw [Marc.unseenType?, Option.bind_some, Json.members?_obj, Option.bind_some, if_neg hstated]
      cases hwrapped : Marc.wrapped? raw with
      | some members =>
        rw [hwrapped, Option.getD_some] at hget
        rw [Option.bind_some, hget]
      | none =>
        -- a bare record states its type in sight
        rw [hwrapped, Option.getD_none] at hget
        exact absurd (by rw [Table.contains, hget]; rfl) hstated

/-- An entity states no other type than that of its family exactly if nothing else is unseen. -/
theorem isOfType_iff_nothingUnseen (hmarc : f.isMarc)
    (h : Entity.ofSnapshot (builtIn f) snapshot = .ok e) :
    e.IsOfType f ↔ Marc.NothingUnseen f snapshot := by
  constructor
  · intro htype t ht
    by_cases hnull : t = .null
    · exact Or.inl hnull
    · exact Or.inr (htype t (recordType?_of_unseenType? hmarc h ht hnull))
  · intro hnothing t ht
    rcases eq_or_unseenType?_of_recordType? hmarc h ht with hown | ⟨hunseen, hnull⟩
    · exact hown
    · exact (hnothing t hunseen).resolve_left hnull

/-- **What the record types of compared records are.**  The entity of a bare record, and of a
wrapped record whose wrapping has a record type, states none or that of its family.  The entity of
any other wrapped record states the type that the content states, be it that of the other family.
So the records that a comparison is about are of the family exactly if nothing else was out of
sight in either snapshot. -/
theorem recordType_of_compared {f : Family} (hmarc : f.isMarc) :
    (∀ snapshot e, Entity.ofSnapshot (builtIn f) snapshot = .ok e →
      (e.IsOfType f ↔ Marc.NothingUnseen f snapshot)
        ∧ ∀ t, Marc.unseenType? snapshot = some t → t ≠ .null → e.recordType? = some t)
      ∧ ∀ old new r, (builtIn f).diff old new = .ok r → ∃ o n,
        Entity.ofSnapshot (builtIn f) old = .ok o ∧ Entity.ofSnapshot (builtIn f) new = .ok n
          ∧ (builtIn f).diffEntities o n = .ok r
          ∧ (o.IsOfType f ∧ n.IsOfType f
            ↔ Marc.NothingUnseen f old ∧ Marc.NothingUnseen f new) := by
  constructor
  · intro snapshot e h
    exact ⟨isOfType_iff_nothingUnseen hmarc h,
      fun t ht hnull => recordType?_of_unseenType? hmarc h ht hnull⟩
  · intro old new r h
    obtain ⟨o, ho, h⟩ := Except.bind_eq_ok.mp h
    obtain ⟨n, hn, h⟩ := Except.bind_eq_ok.mp h
    exact ⟨o, n, ho, hn, h, and_congr (isOfType_iff_nothingUnseen hmarc ho)
      (isOfType_iff_nothingUnseen hmarc hn)⟩

/-- A record with a type in the content of its wrapping. -/
def Marc.typed (t : String) : Json :=
  .obj [("parsedRecord", .obj [("content",
    .obj [("leader", .str "x"), ("recordType", .str t)])])]

theorem recordType_of_compared_authority :
    (∃ e, Entity.ofSnapshot (builtIn .marcBib) (some (Marc.typed "MARC_AUTHORITY")) = .ok e
        ∧ e.recordType? = some (.str "MARC_AUTHORITY") ∧ ¬ e.IsOfType .marcBib)
      ∧ ∃ o n, Entity.ofSnapshot (builtIn .marcBib) (some (Marc.typed "MARC_BIB")) = .ok o
        ∧ Entity.ofSnapshot (builtIn .marcBib) (some (Marc.typed "MARC_AUTHORITY")) = .ok n
        ∧ ¬ (o.IsOfType .marcBib ∧ n.IsOfType .marcBib) := by
  obtain ⟨hread, hdiff⟩ := recordType_of_compared (f := .marcBib) rfl
  have hunseen : Marc.unseenType? (some (Marc.typed "MARC_AUTHORITY"))
      = some (.str "MARC_AUTHORITY") := rfl
  have hother : Json.str "MARC_AUTHORITY" ≠ .str (Marc.recordType .marcBib) := by
    simp [Marc.recordType]
  constructor
  · obtain ⟨e, he⟩ : ∃ e, Entity.ofSnapshot (builtIn .marcBib)
        (some (Marc.typed "MARC_AUTHORITY")) = .ok e := ⟨_, rfl⟩
    have htype := (hread _ e he).2 _ hunseen (by simp)
    exact ⟨e, he, htype, fun hown => hother (hown _ htype)⟩
  · obtain ⟨o, n, ho, hn, -, hiff⟩ := hdiff (some (Marc.typed "MARC_BIB"))
      (some (Marc.typed "MARC_AUTHORITY")) _ (diff_eq_ok.mpr ⟨_, _, rfl, rfl, rfl⟩)
    exact ⟨o, n, ho, hn, fun hown =>
      ((hiff.mp hown).2 _ hunseen).elim (by simp) fun h => hother h⟩

end Rules

end SnapshotDiff
