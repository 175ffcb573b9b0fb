import SnapshotDiff.Proofs.BuiltIn.Entries
import SnapshotDiff.Proofs.Entity.Rendered
import SnapshotDiff.Proofs.Rearranged

/-!
# MARC records that are rendered and read again

The value of the entity of a record is a bare record in the flat layout.  When it is read again its
fields are left as they are if each of them has the key `tag`, for by this key a field in the flat
layout is told from one whose only key is its tag.  A field may have the key with `null` under it.
Then it is taken to be in the flat layout, and once it has been read the key is gone.

## Main results

* `Marc.flatField_eq_self_iff`, `Marc.reshape_eq_self` — which fields and which records are left as
  they are.
* `Marc.ReadAs.isSome_tag_iff` — which fields have the key `tag` once they have been read.
* `Rules.ofSnapshot_json_marc_iff` — **the value of the entity of a record is read as the entity
  exactly if no field of the record has `null` under the key `tag`.**
-/

/-- A list stays as it is if each of its items does. -/
theorem List.mapM_eq_self {α ε : Type} {f : α → Except ε α} {l : List α}
    (h : ∀ a ∈ l, f a = .ok a) : l.mapM f = .ok l := by
  induction l with
  | nil => rfl
  | cons a l ih =>
    obtain ⟨ha, hl⟩ := List.forall_mem_cons.mp h
    exact List.mapM_cons_eq_ok.mpr ⟨a, l, ha, ih hl, rfl⟩

namespace SnapshotDiff

open Finding (members)

namespace Marc

variable {family : Family} {v w : Json} {n : Node}

/-! ### Records that are left as they are -/

/-- In the flat layout a field has a tag, which is `null` only if it was. -/
theorem exists_tag_of_flatField (h : flatField v = .ok w) :
    ∃ t, w.member? "tag" = some t ∧ (t = .null ↔ v.member? "tag" = some .null) := by
  cases v with
  | obj ms =>
    by_cases htagged : Table.contains ms "tag"
    · rw [flatField_of_contains htagged] at h
      obtain rfl := Except.ok.inj h
      obtain ⟨t, ht⟩ := Option.isSome_iff_exists.mp htagged
      have hmember : (Json.obj ms).member? "tag" = some t := ht
      exact ⟨t, hmember, by rw [hmember, Option.some.injEq]⟩
    · have hnot : (Json.obj ms).member? "tag" ≠ some .null := by
        intro hnull
        have hget : Table.get? ms "tag" = some .null := hnull
        exact htagged (by rw [Table.contains, hget]; rfl)
      rw [flatField.eq_def] at h
      dsimp only at h
      rw [if_neg htagged] at h
      split at h
      · next tag body =>
        -- the only key is the tag, and becomes a string
        refine ⟨.str tag, ?_, iff_of_false (by simp) hnot⟩
        cases body with
        | str s =>
          obtain rfl := Except.ok.inj h
          simp [Json.member?, Json.members?, Table.ofList, Table.get?_insert]
        | obj data =>
          obtain ⟨ms, -, rfl, -, htag, -⟩ := exists_of_flatBody h
          exact htag
        | _ => simp [flatBody] at h
      · exact absurd h (by simp)
  | _ => simp [flatField] at h

/-- **A field is left as it is exactly if it has the key `tag`.** -/
theorem flatField_eq_self_iff : flatField v = .ok v ↔ (v.member? "tag").isSome := by
  constructor
  · intro h
    obtain ⟨t, ht, -⟩ := exists_tag_of_flatField h
    rw [ht, Option.isSome_some]
  · intro h
    cases v with
    | obj ms => exact flatField_of_contains h
    | _ => simp [Json.member?, Json.members?] at h

/-- A bare record whose fields have the key `tag` is left as it is. -/
theorem reshape_eq_self {raw : Table Json} (hasc : raw.Ascending)
    (hcheck : checkRecordType family raw = .ok ()) (hbare : raw.get? "parsedRecord" = none)
    (hfields : ∀ v, raw.get? "fields" = some v →
      ∃ vs, v = .arr vs ∧ ∀ w ∈ vs, (w.member? "tag").isSome) :
    reshape family raw = .ok raw := by
  have hcontent : content family raw = .ok raw :=
    content_of_unwrapped fun parsed hparsed => absurd (hbare.symm.trans hparsed) (by simp)
  -- the type that is put under its name is there already
  have htyped : ∀ v, raw.get? "recordType" = some v →
      (raw.erase "fields").insert "recordType" v = raw.erase "fields" := by
    intro v htype
    refine Table.insert_eq_self (Table.ascending_erase hasc _) ?_
    rw [Table.get?_erase, if_neg (by decide), htype]
  cases hget : raw.get? "fields" with
  | none =>
    have herase := Table.erase_eq_self hasc hget
    rw [reshape, hcheck, hcontent]
    simp only [bind, Except.bind, hget]
    cases htype : raw.get? "recordType" with
    | none => exact congrArg Except.ok herase
    | some v => exact congrArg Except.ok ((htyped v htype).trans herase)
  | some v =>
    obtain ⟨vs, rfl, htags⟩ := hfields v hget
    have hflat : flatFields family 0 vs = .ok vs := by
      have hkept : vs.filter (!·.isNull) = vs := by
        refine List.filter_eq_self.mpr fun w hw => ?_
        cases w with
        | null => exact absurd (htags _ hw) (by simp [Json.member?, Json.members?])
        | _ => rfl
      rw [flatFields_eq_ok, hkept]
      exact List.mapM_eq_self fun w hw => flatField_eq_self_iff.mpr (htags w hw)
    have hinsert := (Table.insert_erase hasc hget).symm
    refine (reshape_eq_ok hcontent hget).mpr ⟨hcheck, vs, hflat, ?_⟩
    cases htype : raw.get? "recordType" with
    | none => exact hinsert
    | some v =>
      dsimp only
      rw [htyped v htype]
      exact hinsert

/-! ### Fields that are read -/

/-- What a field has under the key `tag` once it has been read. -/
theorem ReadAs.exists_tag (h : ReadAs family v n) : ∃ t : Json,
    n.json.member? "tag" = (some t).filter (fun t => !t.isNull)
      ∧ (t = .null ↔ v.member? "tag" = some .null) := by
  obtain ⟨w, path, hw, hn⟩ := h
  obtain ⟨t, ht, hnull⟩ := exists_tag_of_flatField hw
  obtain ⟨ms, fs, rfl, hfs, rfl⟩ := Node.readField_object_eq_ok.mp hn
  have hleaf := Node.get?_leaf_of_readFields (by decide)
    (show ("tag", FieldShape.leaf .string) ∈ _ from List.mem_cons_self) hfs
  refine ⟨t, ?_, hnull⟩
  rw [show (Node.object fs).json.member? "tag" = _ from Node.get?_fieldValues fs "tag", hleaf,
    show Table.get? ms "tag" = some t from ht]

/-- Once a field has been read it has the key `tag`, unless it had `null` under it. -/
theorem ReadAs.isSome_tag_iff (h : ReadAs family v n) :
    (n.json.member? "tag").isSome ↔ v.member? "tag" ≠ some .null := by
  obtain ⟨t, ht, hnull⟩ := h.exists_tag
  rw [ht, Ne, ← hnull]
  cases t <;> simp [Json.isNull]

theorem ReadAs.tag_ne_null (h : ReadAs family v n) : n.json.member? "tag" ≠ some .null := by
  obtain ⟨t, ht, -⟩ := h.exists_tag
  rw [ht]
  cases t <;> simp [Json.isNull]

end Marc

/-! ### Records -/

namespace Rules

variable {f : Family} {snapshot : Option Json} {e : Entity}

/-- The root of the entity of a record is settled. -/
theorem settled_of_isMarc (hmarc : f.isMarc) (h : Entity.ofSnapshot (builtIn f) snapshot = .ok e) :
    Node.Settled (builtIn f).root (.object e.root) := by
  obtain ⟨root, hroot, rfl⟩ := Entity.ofSnapshot_eq_ok.mp h
  rw [(root_builtIn_of_isMarc hmarc).2]
  exact Entity.settled_readRoot (hasDistinctNames_builtIn f) hroot

/-- What the value of an entity has under a name is the value of the field. -/
theorem get?_value (name : String) :
    Table.get? (Node.fieldValues e.root) name = (e.root.get? name).map Node.json :=
  Node.get?_fieldValues e.root name

section Settled

variable (hmarc : f.isMarc) (h : Entity.ofSnapshot (builtIn f) snapshot = .ok e)
include hmarc h

/-- The value of an entity is no wrapped record. -/
theorem get?_parsedRecord_of_isMarc :
    Table.get? (Node.fieldValues e.root) "parsedRecord" = none := by
  have hsettled := settled_of_isMarc hmarc h
  rw [root, (root_builtIn_of_isMarc hmarc).1] at hsettled
  rw [get?_value, Option.map_eq_none_iff]
  by_contra hne
  have hmem := Table.get?_isSome_iff_mem.mp (Option.ne_none_iff_isSome.mp hne)
  exact absurd (hsettled.declared _ hmem) (by decide)

/-- The fields of an entity, if it has any, are a collection of values that are not `null`. -/
theorem exists_collection_of_isMarc {n : Node} (hn : e.root.get? "fields" = some n) :
    ∃ ns, n = .collection ns ∧ ∀ m ∈ ns, m.json ≠ .null := by
  have hsettled := settled_of_isMarc hmarc h
  rw [root, (root_builtIn_of_isMarc hmarc).1] at hsettled
  have hfields : ("fields", FieldShape.objects "MarcField" (FieldShape.strings
      ["tag", "ind1", "ind2", "value"] ++ [FieldShape.stringList "subfields"]) none)
        ∈ Marc.shape.fields := List.mem_cons_of_mem _ (List.mem_cons_of_mem _ List.mem_cons_self)
  cases hsettled.field hfields hn with
  | collection _ hmembers => exact ⟨_, rfl, fun m hm => (hmembers m hm).json_ne_null⟩

/-- The fields that the value of an entity has are the values of its fields. -/
theorem entriesOf_json :
    Marc.entriesOf (some e.json) = (members (e.root.get? "fields")).map Node.json := by
  have hwrapped : Marc.wrapped? (Node.fieldValues e.root) = none := by
    rw [Marc.wrapped?, get?_parsedRecord_of_isMarc hmarc h, Option.bind_none]
  have hget : ((some e.json).bind Json.members?).bind (fun raw =>
      ((Marc.wrapped? raw).getD raw).get? "fields") = (e.root.get? "fields").map Node.json := by
    show ((Marc.wrapped? (Node.fieldValues e.root)).getD (Node.fieldValues e.root)).get? "fields"
      = _
    rw [hwrapped, Option.getD_none, get?_value]
  rw [Marc.entriesOf, hget]
  cases hn : e.root.get? "fields" with
  | none => rfl
  | some n =>
    obtain ⟨ns, rfl, hnull⟩ := exists_collection_of_isMarc hmarc h hn
    rw [Option.map_some, Node.json, Node.memberValues_eq_map]
    refine List.filter_eq_self.mpr fun v hv => ?_
    obtain ⟨m, hm, rfl⟩ := List.mem_map.mp hv
    rw [Bool.not_eq_true', ← Bool.not_eq_true, Json.isNull_eq_true_iff]
    exact hnull m hm

/-- The fields of an entity have the key `tag`, except for those that had `null` under it. -/
theorem forall_tag_iff : (∀ n ∈ members (e.root.get? "fields"), (n.json.member? "tag").isSome)
    ↔ ∀ v ∈ Marc.entriesOf snapshot, v.member? "tag" ≠ some .null := by
  obtain ⟨hfrom, hinto⟩ := readAs_of_ofSnapshot hmarc h
  constructor
  · intro htags v hv
    obtain ⟨n, hn, hread⟩ := hinto v hv
    exact hread.isSome_tag_iff.mp (htags n hn)
  · intro hnull n hn
    obtain ⟨v, hv, hread⟩ := hfrom n hn
    exact hread.isSome_tag_iff.mpr (hnull v hv)

/-- A record whose fields have the key `tag` is rendered in the flat layout. -/
theorem reshaped_fieldValues (htype : e.IsOfType f)
    (htags : ∀ n ∈ members (e.root.get? "fields"), (n.json.member? "tag").isSome) :
    (builtIn f).reshaped (Node.fieldValues e.root) = .ok (Node.fieldValues e.root) := by
  have hasc : Table.Ascending (Node.fieldValues e.root) :=
    (settled_of_isMarc hmarc h).ascending.of_keys_eq (Node.keys_fieldValues e.root).symm
  rw [reshaped_builtIn, if_pos hmarc]
  refine Marc.reshape_eq_self hasc ?_ (get?_parsedRecord_of_isMarc hmarc h) fun v hv => ?_
  · rw [Marc.checkRecordType, get?_value]
    cases hstated : e.recordType? with
    | none =>
      rw [show (e.root.get? "recordType").map Node.json = none from hstated]
    | some t =>
      rw [show (e.root.get? "recordType").map Node.json = some t from hstated, htype t hstated]
      exact if_pos rfl
  · rw [get?_value, Option.map_eq_some_iff] at hv
    obtain ⟨n, hn, rfl⟩ := hv
    obtain ⟨ns, rfl, -⟩ := exists_collection_of_isMarc hmarc h hn
    refine ⟨ns.map Node.json, by rw [Node.json, Node.memberValues_eq_map], fun w hw => ?_⟩
    obtain ⟨m, hm, rfl⟩ := List.mem_map.mp hw
    exact htags m (by rw [hn]; exact hm)

end Settled

/-- **The value of the entity of a record is read as the entity exactly if no field of the record
has `null` under the key `tag`.**  The entity must state no other record type than that of its
family, since it is the type of a bare record.  If there is no such field, then the value is in the
flat layout already, so that nothing of it is brought into that layout a second time. -/
theorem ofSnapshot_json_marc_iff (hmarc : f.isMarc)
    (h : Entity.ofSnapshot (builtIn f) snapshot = .ok e) (htype : e.IsOfType f) :
    (Entity.ofSnapshot (builtIn f) (some e.json) = .ok e
        ↔ ∀ v ∈ Marc.entriesOf snapshot, v.member? "tag" ≠ some .null)
      ∧ ((∀ v ∈ Marc.entriesOf snapshot, v.member? "tag" ≠ some .null) →
        (builtIn f).reshaped (Node.fieldValues e.root) = .ok (Node.fieldValues e.root)) := by
  have hflat : (∀ v ∈ Marc.entriesOf snapshot, v.member? "tag" ≠ some .null) →
      (builtIn f).reshaped (Node.fieldValues e.root) = .ok (Node.fieldValues e.root) :=
    fun hnull => reshaped_fieldValues hmarc h htype ((forall_tag_iff hmarc h).mpr hnull)
  refine ⟨⟨fun hagain => ?_, fun hnull => ?_⟩, hflat⟩
  · -- no value of an entity has `null` in it, so all fields that are read of one have the key
    rw [← forall_tag_iff hmarc h, forall_tag_iff hmarc hagain, entriesOf_json hmarc h]
    intro v hv hnull
    obtain ⟨n, hn, rfl⟩ := List.mem_map.mp hv
    obtain ⟨u, -, hread⟩ := (readAs_of_ofSnapshot hmarc h).1 n hn
    exact hread.tag_ne_null hnull
  · have hsettled := settled_of_isMarc hmarc h
    obtain ⟨_, root, hvalue, hread, hroot⟩ := Node.readField_object_eq_ok.mp
      (hsettled.readField_json (hasDistinctNames_builtIn f))
    obtain rfl := Json.obj.inj hvalue
    obtain rfl := Node.object.inj hroot
    refine Entity.ofSnapshot_eq_ok.mpr ⟨e.root, Entity.readRoot_eq_ok.mpr (Or.inr ⟨_, _, rfl,
      hflat hnull, Entity.checkFamily_fieldValues hsettled, hread⟩), ?_⟩
    rw [(root_builtIn_of_isMarc hmarc).2, List.foldl_nil, ← Entity.family_of_ofSnapshot h]

/-- A bare record with some fields. -/
def Marc.recordOf (fields : List Json) : Json :=
  .obj [("fields", .arr fields), ("leader", .str "x")]

/-- Such a record states no type. -/
theorem isOfType_recordOf {fields : List Json}
    (h : Entity.ofSnapshot (builtIn .marcBib) (some (Marc.recordOf fields)) = .ok e) :
    e.IsOfType .marcBib := by
  have hunseen : Marc.unseenType? (some (Marc.recordOf fields)) = none := rfl
  refine (isOfType_iff_nothingUnseen rfl h).mpr fun t ht => ?_
  rw [hunseen] at ht
  exact absurd ht (by simp)

/-- A control field, a data field with an indicator that is `null`, and one in the flat layout. -/
def Marc.mixedFields : List Json :=
  [.obj [("001", .str "in1")], .null,
    .obj [("245", .obj [("ind1", .null), ("subfields", .arr [.obj [("a", .str "Title")]])])],
    .obj [("tag", .str "650"), ("value", .null)]]

theorem ofSnapshot_json_marc_iff_mixed :
    ∃ e, Entity.ofSnapshot (builtIn .marcBib) (some (Marc.recordOf Marc.mixedFields)) = .ok e
      ∧ e.json.text = "\x7b\"fields\":[\x7b\"tag\":\"001\",\"value\":\"in1\"\x7d,"
        ++ "\x7b\"subfields\":[\"$a Title\"],\"tag\":\"245\"\x7d,\x7b\"tag\":\"650\"\x7d],"
        ++ "\"leader\":\"x\"\x7d"
      ∧ Entity.ofSnapshot (builtIn .marcBib) (some e.json) = .ok e := by
  have h : Entity.ofSnapshot (builtIn .marcBib) (some (Marc.recordOf Marc.mixedFields))
      = .ok _ := rfl
  refine ⟨_, h, by decide +kernel, ?_⟩
  refine (ofSnapshot_json_marc_iff rfl h (isOfType_recordOf h)).1.mpr ?_
  have hentries : Marc.entriesOf (some (Marc.recordOf Marc.mixedFields))
      = Marc.mixedFields.filter (!·.isNull) := rfl
  rw [hentries]
  simp [Marc.mixedFields, Json.isNull, Json.member?, Json.members?]

/-- A field with `null` under the key `tag` is read again as a field with the tag `value`, if it has
a value, and is refused if it has nothing. -/
theorem not_ofSnapshot_json_untagged :
    (∃ e e', Entity.ofSnapshot (builtIn .marcBib)
        (some (Marc.recordOf [.obj [("tag", .null), ("value", .str "a")]])) = .ok e
      ∧ e.IsOfType .marcBib ∧ Entity.ofSnapshot (builtIn .marcBib) (some e.json) = .ok e'
      ∧ e'.json.text = "\x7b\"fields\":[\x7b\"tag\":\"value\",\"value\":\"a\"\x7d],"
        ++ "\"leader\":\"x\"\x7d"
      ∧ e' ≠ e)
    ∧ ∃ e d, Entity.ofSnapshot (builtIn .marcBib)
        (some (Marc.recordOf [.obj [("tag", .null)]])) = .ok e
      ∧ e.IsOfType .marcBib ∧ Entity.ofSnapshot (builtIn .marcBib) (some e.json) = .error d := by
  constructor
  · have h : Entity.ofSnapshot (builtIn .marcBib)
        (some (Marc.recordOf [.obj [("tag", .null), ("value", .str "a")]])) = .ok _ := rfl
    refine ⟨_, _, h, isOfType_recordOf h, rfl, by decide +kernel, fun heq => ?_⟩
    exact absurd (congrArg Entity.key heq) (by decide +kernel)
  · have h : Entity.ofSnapshot (builtIn .marcBib)
        (some (Marc.recordOf [.obj [("tag", .null)]])) = .ok _ := rfl
    exact ⟨_, _, h, isOfType_recordOf h, rfl⟩

end Rules

end SnapshotDiff
