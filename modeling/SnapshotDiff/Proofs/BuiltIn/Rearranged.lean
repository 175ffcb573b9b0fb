import SnapshotDiff.BuiltIn.Marc
import SnapshotDiff.Proofs.Entity.Rearranged

/-!
# Rearranged MARC records

The fields of a MARC record, and the subfields of each field, are sets too, although they are
rearranged in the layout of MARC in JSON and compared in the flat one.

## Main definitions

* `Marc.EntryRearranged`, `Marc.RecordRearranged` — fields and records, rearranged in their layout.

## Main results

* `Marc.rearranged_reshape` — **the flat layouts of rearranged records are rearranged.**
-/

namespace List

variable {α β ε : Type} {f : α → Except ε β} {l : List α} {bs : List β}

/-- A list is worked on item by item. -/
theorem mapM_cons_eq_ok {a : α} :
    (a :: l).mapM f = .ok bs ↔ ∃ c cs, f a = .ok c ∧ l.mapM f = .ok cs ∧ bs = c :: cs := by
  rw [mapM_cons, Except.bind_eq_ok]
  constructor
  · rintro ⟨c, hc, h⟩
    obtain ⟨cs, hcs, h⟩ := Except.bind_eq_ok.mp h
    exact ⟨c, cs, hc, hcs, (Except.ok.inj h).symm⟩
  · rintro ⟨c, cs, hc, hcs, rfl⟩
    exact ⟨c, hc, Except.bind_eq_ok.mpr ⟨cs, hcs, rfl⟩⟩

/-- What comes out of a list comes from its items. -/
theorem mem_of_mapM_eq_ok (h : l.mapM f = .ok bs) (b : β) : b ∈ bs ↔ ∃ a ∈ l, f a = .ok b := by
  induction l generalizing bs with
  | nil =>
    obtain rfl := Except.ok.inj h
    simp
  | cons a l ih =>
    obtain ⟨c, cs, hc, hcs, rfl⟩ := mapM_cons_eq_ok.mp h
    rw [mem_cons, ih hcs]
    constructor
    · rintro (rfl | ⟨a', ha', hb⟩)
      · exact ⟨a, mem_cons_self, hc⟩
      · exact ⟨a', mem_cons_of_mem _ ha', hb⟩
    · rintro ⟨a', ha', hb⟩
      rcases mem_cons.mp ha' with rfl | ha'
      · exact Or.inl (Except.ok.inj (hb.symm.trans hc))
      · exact Or.inr ⟨a', ha', hb⟩

/-- The work on a list succeeds if it does on each item. -/
theorem exists_mapM_eq_ok_iff : (∃ bs, l.mapM f = .ok bs) ↔ ∀ a ∈ l, ∃ b, f a = .ok b := by
  induction l with
  | nil => exact iff_of_true ⟨[], rfl⟩ (by simp)
  | cons a l ih =>
    rw [forall_mem_cons, ← ih]
    constructor
    · rintro ⟨bs, h⟩
      obtain ⟨c, cs, hc, hcs, rfl⟩ := mapM_cons_eq_ok.mp h
      exact ⟨⟨c, hc⟩, cs, hcs⟩
    · rintro ⟨⟨c, hc⟩, cs, hcs⟩
      exact ⟨c :: cs, mapM_cons_eq_ok.mpr ⟨c, cs, hc, hcs, rfl⟩⟩

end List

namespace SnapshotDiff

namespace Marc

open FieldShape

/-! ### The relations -/

/-- The second field of a record is the first one with its subfields in another order or repeated:
in the flat layout, or in the body of a field under its tag. -/
inductive EntryRearranged : Json → Json → Prop
  | refl {v : Json} : EntryRearranged v v
  | flat {ms : Table Json} {vs ws : List Json} (tagged : ms.contains "tag")
    (found : ms.get? "subfields" = some (.arr vs)) (items : ∀ v, v ∈ vs ↔ v ∈ ws) :
    EntryRearranged (.obj ms) (.obj (ms.replace "subfields" (.arr ws)))
  | body {tag : String} {data : Table Json} {vs ws : List Json} (untagged : tag ≠ "tag")
    (found : data.get? "subfields" = some (.arr vs)) (items : ∀ v, v ∈ vs ↔ v ∈ ws) :
    EntryRearranged (.obj [(tag, .obj data)])
      (.obj [(tag, .obj (data.replace "subfields" (.arr ws)))])

/-- The fields that are not `null` are paired, and those of each pair are rearranged. -/
def FieldsRearranged (vs ws : List Json) : Prop :=
  ∃ pairs : List (Json × Json), (∀ v, v ∈ pairs.map Prod.fst ↔ v ∈ vs ∧ v ≠ .null)
    ∧ (∀ w, w ∈ pairs.map Prod.snd ↔ w ∈ ws ∧ w ≠ .null) ∧ ∀ p ∈ pairs, EntryRearranged p.1 p.2

/-- The second record is the first one with its fields rearranged, be it bare or wrapped. -/
inductive RecordRearranged : Table Json → Table Json → Prop
  | refl {raw : Table Json} : RecordRearranged raw raw
  | bare {raw : Table Json} {vs ws : List Json}
    (unwrapped : ∀ parsed, raw.get? "parsedRecord" = some parsed → parsed = .null)
    (found : raw.get? "fields" = some (.arr vs)) (fields : FieldsRearranged vs ws) :
    RecordRearranged raw (raw.replace "fields" (.arr ws))
  | wrapped {raw parsed content : Table Json} {vs ws : List Json}
    (wrapping : raw.get? "parsedRecord" = some (.obj parsed))
    (inner : parsed.get? "content" = some (.obj content))
    (found : content.get? "fields" = some (.arr vs)) (fields : FieldsRearranged vs ws) :
    RecordRearranged raw (raw.replace "parsedRecord"
      (.obj (parsed.replace "content" (.obj (content.replace "fields" (.arr ws))))))

/-! ### Subfields -/

/-- What is declared for a field of a record. -/
def entry : FieldShape :=
  .object "MarcField" (strings ["tag", "ind1", "ind2", "value"] ++ [stringList "subfields"])

/-- Flat fields that differ in their subfields only, which are the same, are rearranged. -/
theorem rearranged_entry {ms ns : Table Json} {vs ws : List Json} (hkeys : ms.keys = ns.keys)
    (hother : ∀ name, name ≠ "subfields" → ms.get? name = ns.get? name)
    (hms : ms.get? "subfields" = some (.arr vs)) (hns : ns.get? "subfields" = some (.arr ws))
    (hitems : ∀ v, v ∈ vs ↔ v ∈ ws) : Rearranged entry (.obj ms) (.obj ns) := by
  refine .object hkeys fun name s v w hs hv hw => ?_
  by_cases hname : name = "subfields"
  · subst hname
    obtain rfl : s = .leaves .string := by
      simpa [strings, stringList, field] using hs
    obtain rfl := Option.some.inj (hv.symm.trans hms)
    obtain rfl := Option.some.inj (hw.symm.trans hns)
    exact .of_same_items rfl hitems
  · rw [hother name hname] at hv
    obtain rfl := Option.some.inj (hv.symm.trans hw)
    exact .refl

/-- The fields of a flat body: the subfields come last. -/
theorem flatBody_eq_ok {tag : String} {data : Table Json} {f : Json} :
    flatBody tag (.obj data) = .ok f ↔ ∃ subfields,
      flatSubfields (data.get? "subfields") = .ok subfields ∧ f = .obj (Table.insert
        (Table.ofList (("tag", .str tag) :: kept data "ind1" ++ kept data "ind2")) "subfields"
          (.arr subfields)) := by
  have hlast : ∀ subfields, Table.ofList (("tag", Json.str tag) :: kept data "ind1"
        ++ kept data "ind2" ++ [("subfields", .arr subfields)])
      = Table.insert (Table.ofList (("tag", .str tag) :: kept data "ind1" ++ kept data "ind2"))
          "subfields" (.arr subfields) := by
    intro subfields
    rw [Table.ofList, List.foldl_append]
    rfl
  rw [flatBody, Except.bind_eq_ok]
  constructor
  · rintro ⟨subfields, hsub, h⟩
    exact ⟨subfields, hsub, by rw [← hlast]; exact (Except.ok.inj h).symm⟩
  · rintro ⟨subfields, hsub, rfl⟩
    exact ⟨subfields, hsub, by rw [← hlast]; rfl⟩

/-- A body with the same subfields is made flat as well. -/
theorem rearranged_flatBody {tag : String} {data : Table Json} {vs ws : List Json} {f : Json}
    (hfound : data.get? "subfields" = some (.arr vs)) (hitems : ∀ v, v ∈ vs ↔ v ∈ ws)
    (h : flatBody tag (.obj data) = .ok f) :
    ∃ f', flatBody tag (.obj (data.replace "subfields" (.arr ws))) = .ok f'
      ∧ Rearranged entry f f' := by
  obtain ⟨subfields, hsub, rfl⟩ := flatBody_eq_ok.mp h
  rw [hfound] at hsub
  have hmem : ∀ x, x ∈ subfields ↔ ∃ v ∈ vs, flatSubfield v = .ok x :=
    List.mem_of_mapM_eq_ok hsub
  -- each of the subfields is among the first ones, and these could be made flat
  obtain ⟨subfields', hsub'⟩ : ∃ subfields', ws.mapM flatSubfield = .ok subfields' := by
    rw [List.exists_mapM_eq_ok_iff]
    exact fun w hw => List.exists_mapM_eq_ok_iff.mp ⟨subfields, hsub⟩ w ((hitems w).mpr hw)
  have hkept : ∀ name, name ≠ "subfields" →
      kept (data.replace "subfields" (.arr ws)) name = kept data name := by
    intro name hname
    rw [kept, kept, Table.get?_replace, if_neg (Ne.symm hname)]
  refine ⟨_, flatBody_eq_ok.mpr ⟨subfields', ?_, rfl⟩, ?_⟩
  · rw [Table.get?_replace, if_pos rfl, hfound]
    exact hsub'
  · rw [hkept _ (by decide), hkept _ (by decide)]
    refine rearranged_entry (Table.keys_insert_congr rfl _ _ _) (fun name hname => ?_)
      (by rw [Table.get?_insert, if_pos rfl]) (by rw [Table.get?_insert, if_pos rfl]) fun x => ?_
    · rw [Table.get?_insert, Table.get?_insert, if_neg (Ne.symm hname), if_neg (Ne.symm hname)]
    · rw [hmem, List.mem_of_mapM_eq_ok hsub']
      simp only [hitems]

/-! ### Fields -/

theorem flatField_of_contains {ms : Table Json} (h : ms.contains "tag") :
    flatField (.obj ms) = .ok (.obj ms) := by
  rw [flatField.eq_def]
  exact if_pos h

theorem flatField_of_ne {tag : String} (h : tag ≠ "tag") (body : Json) :
    flatField (.obj [(tag, body)]) = flatBody tag body := by
  have hnot : ¬ Table.contains [(tag, body)] "tag" := by
    rw [Table.contains, Table.get?_cons, if_neg h, Table.get?_nil, Option.isSome_none]
    decide
  rw [flatField.eq_def]
  exact if_neg hnot

/-- Of a rearranged field the flat layout is rearranged. -/
theorem rearranged_flatField {v w f : Json} (h : EntryRearranged v w) (hf : flatField v = .ok f) :
    ∃ f', flatField w = .ok f' ∧ Rearranged entry f f' := by
  cases h with
  | refl => exact ⟨f, hf, .refl⟩
  | @flat ms vs ws tagged found items =>
    have htagged : (ms.replace "subfields" (.arr ws)).contains "tag" := by
      rw [Table.contains, Table.get?_replace, if_neg (by decide)]
      exact tagged
    rw [flatField_of_contains tagged] at hf
    obtain rfl := Except.ok.inj hf
    refine ⟨_, flatField_of_contains htagged, ?_⟩
    refine rearranged_entry (Table.keys_replace _ _ _).symm (fun name hname => ?_) found ?_ items
    · rw [Table.get?_replace, if_neg (Ne.symm hname)]
    · rw [Table.get?_replace, if_pos rfl, found]
      rfl
  | @body tag data vs ws untagged found items =>
    rw [flatField_of_ne untagged] at hf ⊢
    exact rearranged_flatBody found items hf

/-- A field in the flat layout is an object. -/
theorem ne_null_of_flatField {v f : Json} (h : flatField v = .ok f) : f ≠ .null := by
  rintro rfl
  rw [flatField.eq_def] at h
  split at h
  · split at h
    · exact absurd h (by simp)
    · split at h
      · next body _ =>
        cases body with
        | obj data =>
          obtain ⟨_, _, hnull⟩ := flatBody_eq_ok.mp h
          exact absurd hnull (by simp)
        | _ => simp [flatBody] at h
      · exact absurd h (by simp)
  · exact absurd h (by simp)

/-- Fields are made flat one by one, those that are `null` apart. -/
theorem flatFields_eq_ok {family : Family} {vs fs : List Json} : ∀ {i},
    flatFields family i vs = .ok fs ↔ (vs.filter (!·.isNull)).mapM flatField = .ok fs := by
  induction vs generalizing fs with
  | nil => simp [flatFields, pure, Except.pure]
  | cons v vs ih =>
    intro i
    by_cases hv : v = .null
    · subst hv
      rw [flatFields, ih]
      rfl
    · have hkeep : (!v.isNull) = true := by
        rwa [Bool.not_eq_true', ← Bool.not_eq_true, Json.isNull_eq_true_iff]
      rw [List.filter_cons, if_pos hkeep, List.mapM_cons_eq_ok, flatFields]
      · cases hf : flatField v with
        | error fault => simp
        | ok f =>
          cases hrest : flatFields family (i + 1) vs with
          | error e =>
            refine iff_of_false (by simp [Except.map]) ?_
            rintro ⟨c, cs, -, hcs, -⟩
            rw [ih.mpr hcs] at hrest
            exact absurd hrest (by simp)
          | ok rest =>
            have hmapM := (ih (i := i + 1)).mp hrest
            simp [Except.map, hmapM, eq_comm]
      · exact hv

/-- The flat layouts of rearranged fields are rearranged. -/
theorem rearranged_flatFields {family : Family} {vs ws fs : List Json} {i : Nat}
    (h : FieldsRearranged vs ws) (hfs : flatFields family i vs = .ok fs) (j : Nat) :
    ∃ fs', flatFields family j ws = .ok fs'
      ∧ Rearranged (.objects "MarcField"
        (strings ["tag", "ind1", "ind2", "value"] ++ [stringList "subfields"]) none)
          (.arr fs) (.arr fs') := by
  obtain ⟨pairs, left, right, hpairs⟩ := h
  rw [flatFields_eq_ok] at hfs
  have hkept : ∀ {us : List Json} {u : Json}, u ∈ us.filter (!·.isNull) ↔ u ∈ us ∧ u ≠ .null := by
    intro us u
    rw [List.mem_filter, Bool.not_eq_true', ← Bool.not_eq_true, Json.isNull_eq_true_iff]
  -- both fields of a pair can be made flat
  have hpair : ∀ p ∈ pairs, ∃ f f', f ∈ fs ∧ flatField p.1 = .ok f ∧ flatField p.2 = .ok f'
      ∧ Rearranged entry f f' := by
    intro p hp
    have hmem := hkept.mpr ((left p.1).mp (List.mem_map_of_mem hp))
    obtain ⟨f, hf⟩ := List.exists_mapM_eq_ok_iff.mp ⟨fs, hfs⟩ p.1 hmem
    obtain ⟨f', hf', h⟩ := rearranged_flatField (hpairs p hp) hf
    exact ⟨f, f', (List.mem_of_mapM_eq_ok hfs f).mpr ⟨p.1, hmem, hf⟩, hf, hf', h⟩
  obtain ⟨fs', hfs'⟩ : ∃ fs', (ws.filter (!·.isNull)).mapM flatField = .ok fs' := by
    rw [List.exists_mapM_eq_ok_iff]
    intro w hw
    obtain ⟨p, hp, rfl⟩ := List.mem_map.mp ((right w).mpr (hkept.mp hw))
    obtain ⟨_, f', _, _, hf', _⟩ := hpair p hp
    exact ⟨f', hf'⟩
  have hleft : ∀ f ∈ fs, ∃ f' ∈ fs', Rearranged entry f f' := by
    intro f hf
    obtain ⟨v, hv, hvf⟩ := (List.mem_of_mapM_eq_ok hfs f).mp hf
    obtain ⟨p, hp, rfl⟩ := List.mem_map.mp ((left v).mpr (hkept.mp hv))
    obtain ⟨f₁, f', -, hf₁, hf', h⟩ := hpair p hp
    obtain rfl := Except.ok.inj (hvf.symm.trans hf₁)
    have hmem := hkept.mpr ((right p.2).mp (List.mem_map_of_mem hp))
    exact ⟨f', (List.mem_of_mapM_eq_ok hfs' f').mpr ⟨p.2, hmem, hf'⟩, h⟩
  have hright : ∀ f' ∈ fs', ∃ f ∈ fs, Rearranged entry f f' := by
    intro f' hf'
    obtain ⟨w, hw, hwf⟩ := (List.mem_of_mapM_eq_ok hfs' f').mp hf'
    obtain ⟨p, hp, rfl⟩ := List.mem_map.mp ((right w).mpr (hkept.mp hw))
    obtain ⟨f, f₂, hf, -, hf₂, h⟩ := hpair p hp
    obtain rfl := Except.ok.inj (hwf.symm.trans hf₂)
    exact ⟨f, hf, h⟩
  -- flat fields are objects, so that none of them is passed over
  have hsome : ∀ {us gs : List Json}, us.mapM flatField = .ok gs →
      ∀ g, g ∈ gs ↔ g ∈ gs ∧ g ≠ .null :=
    fun hgs g => ⟨fun hg => ⟨hg, by
      obtain ⟨u, -, hu⟩ := (List.mem_of_mapM_eq_ok hgs g).mp hg
      exact ne_null_of_flatField hu⟩, And.left⟩
  obtain ⟨flats, hfst, hsnd, hflats⟩ := List.exists_pairs hleft hright
  exact ⟨fs', flatFields_eq_ok.mpr hfs', .collection flats rfl
    (fun f => (hfst f).symm.trans (hsome hfs f)) (fun f => (hsnd f).symm.trans (hsome hfs' f))
    hflats⟩

/-! ### Records -/

/-- The flat layout of a record with fields: its type, its content apart from the fields, and the
flat fields. -/
theorem reshape_eq_ok {family : Family} {raw members out : Table Json} {vs : List Json}
    (hcontent : content family raw = .ok members)
    (hfields : members.get? "fields" = some (.arr vs)) :
    reshape family raw = .ok out ↔ checkRecordType family raw = .ok ()
      ∧ ∃ fs, flatFields family 0 vs = .ok fs ∧ out = Table.insert
        (match raw.get? "recordType" with
          | some v => (members.erase "fields").insert "recordType" v
          | none => members.erase "fields") "fields" (.arr fs) := by
  rw [reshape, Except.bind_eq_ok]
  constructor
  · rintro ⟨_, hcheck, h⟩
    obtain ⟨_, hmembers, h⟩ := Except.bind_eq_ok.mp h
    obtain rfl := Except.ok.inj (hmembers.symm.trans hcontent)
    dsimp only at h
    rw [hfields] at h
    obtain ⟨fs, hfs, h⟩ := Except.bind_eq_ok.mp h
    exact ⟨hcheck, fs, hfs, (Except.ok.inj h).symm⟩
  · rintro ⟨hcheck, fs, hfs, rfl⟩
    refine ⟨(), hcheck, Except.bind_eq_ok.mpr ⟨members, hcontent, ?_⟩⟩
    dsimp only
    rw [hfields]
    exact Except.bind_eq_ok.mpr ⟨fs, hfs, rfl⟩

/-- Records of one type whose contents differ in their fields only, which are rearranged. -/
theorem rearranged_of_content {family : Family} {raw raw' members out : Table Json}
    {vs ws : List Json} (htype : raw'.get? "recordType" = raw.get? "recordType")
    (hcontent : content family raw = .ok members)
    (hcontent' : content family raw' = .ok (members.replace "fields" (.arr ws)))
    (hfields : members.get? "fields" = some (.arr vs)) (h : FieldsRearranged vs ws)
    (hout : reshape family raw = .ok out) :
    ∃ out', reshape family raw' = .ok out'
      ∧ Rearranged (.object shape.typeName shape.fields) (.obj out) (.obj out') := by
  obtain ⟨hcheck, fs, hfs, rfl⟩ := (reshape_eq_ok hcontent hfields).mp hout
  obtain ⟨fs', hfs', hrearranged⟩ := rearranged_flatFields h hfs 0
  have hfields' : (members.replace "fields" (.arr ws)).get? "fields" = some (.arr ws) := by
    rw [Table.get?_replace, if_pos rfl, hfields]
    rfl
  have hcheck' : checkRecordType family raw' = .ok () := by
    rw [checkRecordType, htype]
    exact hcheck
  refine ⟨_, (reshape_eq_ok hcontent' hfields').mpr ⟨hcheck', fs', hfs', rfl⟩, ?_⟩
  rw [htype, Table.erase_replace]
  generalize (match raw.get? "recordType" with
    | some v => (members.erase "fields").insert "recordType" v
    | none => members.erase "fields") = typed
  refine .object (Table.keys_insert_congr rfl _ _ _) fun name s v w hs hv hw => ?_
  rw [Table.get?_insert] at hv hw
  split at hv
  · next hname =>
    subst hname
    rw [if_pos rfl] at hw
    obtain rfl := Option.some.inj hv
    obtain rfl := Option.some.inj hw
    obtain rfl : s = .objects "MarcField"
        (strings ["tag", "ind1", "ind2", "value"] ++ [stringList "subfields"]) none := by
      simpa [shape, strings, objectList, field] using hs
    exact hrearranged
  · next hname =>
    rw [if_neg hname] at hw
    obtain rfl := Option.some.inj (hv.symm.trans hw)
    exact .refl

theorem content_of_unwrapped {family : Family} {raw : Table Json}
    (h : ∀ parsed, raw.get? "parsedRecord" = some parsed → parsed = .null) :
    content family raw = .ok raw := by
  rw [content.eq_def]
  split
  · rfl
  · rfl
  · next parsed hnull hparsed => exact absurd (h parsed hparsed) hnull

theorem content_of_wrapped {family : Family} {raw parsed members : Table Json}
    (hparsed : raw.get? "parsedRecord" = some (.obj parsed))
    (hmembers : parsed.get? "content" = some (.obj members)) :
    content family raw = .ok members := by
  have hinner : ((Json.obj parsed).member? "content").bind Json.members? = some members := by
    rw [Json.member?, Json.members?_obj, Option.bind_some, hmembers]
    rfl
  rw [content.eq_def, hparsed]
  dsimp only
  rw [hinner]

/-- **The flat layouts of rearranged records are rearranged.** -/
theorem rearranged_reshape {family : Family} {raw raw' out : Table Json}
    (h : RecordRearranged raw raw') (hout : reshape family raw = .ok out) :
    ∃ out', reshape family raw' = .ok out'
      ∧ Rearranged (.object shape.typeName shape.fields) (.obj out) (.obj out') := by
  cases h with
  | refl => exact ⟨out, hout, .refl⟩
  | bare unwrapped found fields =>
    refine rearranged_of_content ?_ (content_of_unwrapped unwrapped) (content_of_unwrapped ?_) found
      fields hout
    · rw [Table.get?_replace, if_neg (by decide)]
    · rw [Table.get?_replace, if_neg (by decide)]
      exact unwrapped
  | @wrapped parsed members _ ws wrapping inner found fields =>
    have hinner : (parsed.replace "content" (.obj (members.replace "fields" (.arr ws)))).get?
        "content" = some (.obj (members.replace "fields" (.arr ws))) := by
      rw [Table.get?_replace, if_pos rfl, inner]
      rfl
    refine rearranged_of_content ?_ (content_of_wrapped wrapping inner)
      (content_of_wrapped ?_ hinner) found fields hout
    · rw [Table.get?_replace, if_neg (by decide)]
    · rw [Table.get?_replace, if_pos rfl, wrapping]
      rfl

end Marc

end SnapshotDiff
