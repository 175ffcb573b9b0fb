import SnapshotDiff.AuditEntry
import SnapshotDiff.Proofs.Change.Stored
import SnapshotDiff.Proofs.EventId
import SnapshotDiff.Proofs.Instant

/-!
# Stored entries come back unchanged

An entry is read back from its text if its date is valid and its record shows no `null`.  The
records of comparisons never do, so a stored comparison comes back as it was.

## Main results

* `AuditEntry.ofDocument?_ofText?_text` — an entry is read back from its text.
* `Rules.ofText?_text_of_diff` — **an entry with the record of a comparison comes back unchanged.**
-/

namespace SnapshotDiff

open Document (members?_ofMembers depth_ofMembers_le_iff optional_ofOptional isLexical_ofMembers
  isLexical_ofString isLexical_ofOptional)

namespace AuditEntry

variable {e : AuditEntry} {room : Nat}

/-- An entry is read back from its document. -/
theorem ofDocument?_document (hdate : e.date.IsValid)
    (hvalues : ∀ r ∈ e.diff, ∀ v ∈ r.values, v.Present Json.IsValid)
    (hdepth : e.document.depth ≤ room) : ofDocument? room e.document = some e := by
  obtain ⟨hroom, hdepths⟩ := depth_ofMembers_le_iff.mp hdepth
  have hmembers : e.document.members? room ["eventId", "tenantId", "entityId", "family", "action",
      "userId", "eventDate", "diff"] = _ := members?_ofMembers hroom rfl (by decide)
  have huser : Document.optional Document.text? (some (.ofOptional .ofString e.user))
      = some e.user :=
    optional_ofOptional fun s _ => ⟨by simp [Document.ofString], Document.text?_ofString s⟩
  have hdiff : Document.optional (ChangeRecord.ofDocument? (room - 1))
      (some (.ofOptional ChangeRecord.document e.diff)) = some e.diff := by
    refine optional_ofOptional fun r hr => ?_
    have hrecord := hdepths ("diff", .ofOptional ChangeRecord.document e.diff) (by simp)
    rw [hr, Document.ofOptional] at hrecord
    exact ⟨by simp [ChangeRecord.document, Document.ofMembers],
      ChangeRecord.ofDocument?_document (hvalues r hr) hrecord⟩
  rw [ofDocument?, hmembers]
  simp [huser, hdiff, EventId.ofText?_text, Instant.ofStored?_text hdate]

theorem isLexical_document (e : AuditEntry) : e.document.IsLexical := by
  refine isLexical_ofMembers ?_
  simp only [List.forall_mem_cons]
  exact ⟨isLexical_ofString _, isLexical_ofString _, isLexical_ofString _, isLexical_ofString _,
    isLexical_ofString _, isLexical_ofOptional fun s _ => isLexical_ofString s,
    isLexical_ofString _, isLexical_ofOptional fun r _ => r.isLexical_document, by simp⟩

/-- An entry is read back from its text, if it lies no deeper than the reader goes. -/
theorem ofDocument?_ofText?_text (hdate : e.date.IsValid)
    (hvalues : ∀ r ∈ e.diff, ∀ v ∈ r.values, v.Present Json.IsValid)
    (hdepth : e.document.depth ≤ room) :
    (Document.ofText? e.text).bind (ofDocument? room) = some e := by
  rw [text, Document.ofText?_compact e.isLexical_document, Option.bind_some,
    ofDocument?_document hdate hvalues hdepth]

end AuditEntry

namespace Rules

/-- **An entry with the record of a comparison comes back unchanged**, whatever the rules and
whatever else the entry says, from every reader that goes deep enough.  The reader of stored
entries is one, up to its limit.  No value in the record is `null`: a `null` would be read back as
absent. -/
theorem ofText?_text_of_diff {rules : Rules} {s t : Option Json} {e : AuditEntry}
    (hrules : rules.Preserves Json.IsValid) (hs : ∀ v ∈ s, v.IsValid) (ht : ∀ v ∈ t, v.IsValid)
    (h : rules.diff s t = .ok e.diff) (hdate : e.date.IsValid) :
    (∀ room, e.document.depth ≤ room →
        (Document.ofText? e.text).bind (AuditEntry.ofDocument? room) = some e)
      ∧ (e.document.depth ≤ Document.maxDepth → AuditEntry.ofText? e.text = some e)
      ∧ ∀ r ∈ e.diff, ∀ v ∈ r.values, v ≠ .null := by
  have hpresent : ∀ r ∈ e.diff, ∀ v ∈ r.values, v.Present Json.IsValid := by
    intro r hr
    rw [hr] at h
    exact present_of_diff Json.local_isValid hrules hs ht h
  have hread : ∀ room, e.document.depth ≤ room →
      (Document.ofText? e.text).bind (AuditEntry.ofDocument? room) = some e :=
    fun _ => AuditEntry.ofDocument?_ofText?_text hdate hpresent
  exact ⟨hread, hread Document.maxDepth, fun r hr v hv => (hpresent r hr v hv).1⟩

/-- A user with custom fields. -/
def customized (fields : Table Json) : Json :=
  .obj [("barcode", .str "1"), ("customFields", .obj fields)]

/-- One custom field is filled and another one cleared. -/
def refilled : AuditEntry where
  id := .ofTime 1709287200000 7
  tenant := "library"
  entity := "user \"1\""
  family := .user
  action := .update
  user := none
  date := ⟨⟨2024, 3, 1⟩, 36000, false, 120000000⟩
  diff := some ⟨[⟨.added, "floor", "customFields.floor", none, some (.int 3)⟩,
    ⟨.removed, "room", "customFields.room", some (.str "12"), none⟩], []⟩

theorem isValid_customized {fields : Table Json} (hasc : fields.Ascending)
    (hfields : ∀ m ∈ fields, m.2.IsValid) : (customized fields).IsValid := by
  refine Json.local_isValid.object (Table.ascending_iff.mpr ?_) ?_
  · simp only [List.map_cons, List.map_nil]
    decide
  · simp only [List.forall_mem_cons]
    exact ⟨⟨trivial, trivial⟩, Json.local_isValid.object hasc hfields, by simp⟩

theorem ofText?_text_of_diff_refilled :
    (builtIn .user).diff (some (customized [("floor", .null), ("room", .str "12")]))
        (some (customized [("floor", .int 3), ("room", .null)])) = .ok refilled.diff
      ∧ AuditEntry.ofText? refilled.text = some refilled
      ∧ ∀ r ∈ refilled.diff, ∀ v ∈ r.values, v ≠ .null := by
  have hdiff : (builtIn .user).diff (some (customized [("floor", .null), ("room", .str "12")]))
      (some (customized [("floor", .int 3), ("room", .null)])) = .ok refilled.diff := rfl
  have hold : ∀ m ∈ [("floor", Json.null), ("room", .str "12")], m.2.IsValid := by
    simp [Json.IsValid, Json.Canonical, Json.Bounded]
  have hnew : ∀ m ∈ [("floor", Json.int 3), ("room", .null)], m.2.IsValid := by
    simp [Json.IsValid, Json.Canonical, Json.Bounded, Json.isWord]
  have hdate : refilled.date.IsValid := ⟨by decide, by decide, by decide, by decide, by decide⟩
  obtain ⟨-, hread, hnull⟩ := ofText?_text_of_diff (preserves_of_reshape?_eq_none rfl _)
    (fun v hv => Option.some.inj hv ▸ isValid_customized (Table.ascending_iff.mpr (by decide)) hold)
    (fun v hv => Option.some.inj hv ▸ isValid_customized (Table.ascending_iff.mpr (by decide)) hnew)
    hdiff hdate
  exact ⟨hdiff, hread (by decide), hnull⟩

end Rules

end SnapshotDiff
