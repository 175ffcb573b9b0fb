import SnapshotDiff.Change.Stored
import SnapshotDiff.Proofs.Document.Members
import SnapshotDiff.Proofs.Finding.Shown

/-!
# Stored records are read back

A value that is absent is written as `null`, and so is the value `null`.  Nothing else is lost: a
record is read back if it shows no `null`, its values are valid, and it lies no deeper than the
reader goes.

## Main results

* `FieldChange.ofDocument?_document`, `ItemChange.ofDocument?_document`,
  `CollectionChange.ofDocument?_document` — changes are read back.
* `ChangeRecord.ofDocument?_document` — **records are read back.**
* `ChangeRecord.isLexical_document` — every record is a text.
-/

namespace SnapshotDiff

open Document (members?_ofMembers depth_ofMembers_le_iff depth_array_le_iff optional_ofOptional
  list?_map isLexical_ofMembers isLexical_ofString isLexical_ofOptional isLexical_array_map)

variable {room : Nat}

/-- A value that may be absent is read back, if it is not `null`. -/
theorem Json.optional_value {v : Option Json} (hv : ∀ w ∈ v.toList, w.Present IsValid)
    (hdepth : (Document.ofOptional document v).depth ≤ room) :
    Document.optional (·.valueWithin? room) (some (Document.ofOptional document v)) = some v := by
  refine optional_ofOptional fun w hw => ?_
  obtain ⟨hnull, hcanonical, hbounded⟩ := hv w (Option.mem_toList.mpr hw)
  rw [hw, Document.ofOptional] at hdepth
  exact ⟨document_ne_null hnull, valueWithin?_document w hcanonical hbounded hdepth⟩

namespace ChangeKind

theorem ofDocument?_document (k : ChangeKind) : ofDocument? room k.document = some k := by
  rw [ofDocument?, document, Document.tag?_ofString, Option.bind_some, ofName?_name]

end ChangeKind

namespace FieldChange

/-- **The change of a field is read back**, if it shows no `null`. -/
theorem ofDocument?_document {c : FieldChange} (hvalues : ∀ v ∈ c.values, v.Present Json.IsValid)
    (hdepth : c.document.depth ≤ room) : ofDocument? room c.document = some c := by
  obtain ⟨hroom, hdepths⟩ := depth_ofMembers_le_iff.mp hdepth
  have hmembers : c.document.members? room
      ["changeType", "fieldName", "fullPath", "oldValue", "newValue"] = _ :=
    members?_ofMembers hroom rfl (by decide)
  obtain ⟨holds, hnews⟩ := List.forall_mem_append.mp hvalues
  have hold := Json.optional_value holds
    (hdepths ("oldValue", .ofOptional Json.document c.old) (by simp))
  have hnew := Json.optional_value hnews
    (hdepths ("newValue", .ofOptional Json.document c.new) (by simp))
  rw [ofDocument?, hmembers]
  simp [ChangeKind.ofDocument?_document, hold, hnew]

theorem isLexical_document (c : FieldChange) : c.document.IsLexical := by
  refine isLexical_ofMembers ?_
  simp only [List.forall_mem_cons]
  exact ⟨isLexical_ofString _, isLexical_ofString _, isLexical_ofString _,
    isLexical_ofOptional fun v _ => v.isLexical_document,
    isLexical_ofOptional fun v _ => v.isLexical_document, by simp⟩

end FieldChange

namespace ItemChange

/-- **The change of a member is read back**, if it shows no `null`. -/
theorem ofDocument?_document {i : ItemChange} (hvalues : ∀ v ∈ i.values, v.Present Json.IsValid)
    (hdepth : i.document.depth ≤ room) : ofDocument? room i.document = some i := by
  obtain ⟨hroom, hdepths⟩ := depth_ofMembers_le_iff.mp hdepth
  have hmembers : i.document.members? room ["changeType", "oldValue", "newValue"] = _ :=
    members?_ofMembers hroom rfl (by decide)
  obtain ⟨holds, hnews⟩ := List.forall_mem_append.mp hvalues
  have hold := Json.optional_value holds
    (hdepths ("oldValue", .ofOptional Json.document i.old) (by simp))
  have hnew := Json.optional_value hnews
    (hdepths ("newValue", .ofOptional Json.document i.new) (by simp))
  rw [ofDocument?, hmembers]
  simp [ChangeKind.ofDocument?_document, hold, hnew]

theorem isLexical_document (i : ItemChange) : i.document.IsLexical := by
  refine isLexical_ofMembers ?_
  simp only [List.forall_mem_cons]
  exact ⟨isLexical_ofString _, isLexical_ofOptional fun v _ => v.isLexical_document,
    isLexical_ofOptional fun v _ => v.isLexical_document, by simp⟩

end ItemChange

namespace CollectionChange

/-- **The changes of a collection are read back**, if they show no `null`. -/
theorem ofDocument?_document {c : CollectionChange}
    (hvalues : ∀ i ∈ c.items, ∀ v ∈ i.values, v.Present Json.IsValid)
    (hdepth : c.document.depth ≤ room) : ofDocument? room c.document = some c := by
  obtain ⟨hroom, hdepths⟩ := depth_ofMembers_le_iff.mp hdepth
  have hmembers : c.document.members? room ["collectionName", "itemChanges"] = _ :=
    members?_ofMembers hroom rfl (by decide)
  have hitems := depth_array_le_iff.mp
    (hdepths ("itemChanges", .array (c.items.map ItemChange.document)) (by simp))
  have hlist := list?_map hitems.1 fun i hi => ItemChange.ofDocument?_document (hvalues i hi)
    (hitems.2 _ (List.mem_map_of_mem hi))
  rw [ofDocument?, hmembers]
  simp [hlist]

theorem isLexical_document (c : CollectionChange) : c.document.IsLexical := by
  refine isLexical_ofMembers ?_
  simp only [List.forall_mem_cons]
  exact ⟨isLexical_ofString _, isLexical_array_map fun i _ => i.isLexical_document, by simp⟩

end CollectionChange

namespace ChangeRecord

/-- **A record is read back**, if it shows no `null`. -/
theorem ofDocument?_document {r : ChangeRecord} (hvalues : ∀ v ∈ r.values, v.Present Json.IsValid)
    (hdepth : r.document.depth ≤ room) : ofDocument? room r.document = some r := by
  obtain ⟨hroom, hdepths⟩ := depth_ofMembers_le_iff.mp hdepth
  have hmembers : r.document.members? room ["fieldChanges", "collectionChanges"] = _ :=
    members?_ofMembers hroom rfl (by decide)
  have hfields := depth_array_le_iff.mp
    (hdepths ("fieldChanges", .array (r.fields.map FieldChange.document)) (by simp))
  have hcollections := depth_array_le_iff.mp
    (hdepths ("collectionChanges", .array (r.collections.map CollectionChange.document)) (by simp))
  have hfieldList := list?_map hfields.1 fun c hc => FieldChange.ofDocument?_document
    (fun v hv => hvalues v (List.mem_append_left _ (List.mem_flatMap.mpr ⟨c, hc, hv⟩)))
    (hfields.2 _ (List.mem_map_of_mem hc))
  have hcollectionList := list?_map hcollections.1 fun c hc => CollectionChange.ofDocument?_document
    (fun i hi v hv => hvalues v (List.mem_append_right _ (List.mem_flatMap.mpr
      ⟨i, List.mem_flatMap.mpr ⟨c, hc, hi⟩, hv⟩)))
    (hcollections.2 _ (List.mem_map_of_mem hc))
  rw [ofDocument?, hmembers]
  simp [hfieldList, hcollectionList]

/-- Every record is a text. -/
theorem isLexical_document (r : ChangeRecord) : r.document.IsLexical := by
  refine isLexical_ofMembers ?_
  simp only [List.forall_mem_cons]
  exact ⟨isLexical_array_map fun c _ => c.isLexical_document,
    isLexical_array_map fun c _ => c.isLexical_document, by simp⟩

end ChangeRecord

end SnapshotDiff
