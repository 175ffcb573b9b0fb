import SnapshotDiff.Proofs.Comparison
import SnapshotDiff.Proofs.Correlation.Order
import SnapshotDiff.Proofs.Entity.Absent

/-!
# Comparing the other way round

The comparison walks along the old snapshot first, keeps the first of several members with one key
on either side, and marks members as changed from the inside outward.  None of that favours a
side: the record from the new snapshot to the old one is the record back.

## Main results

* `Rules.diff_swap` — the comparison the other way round gives the record back.
-/

namespace SnapshotDiff

namespace Rules

variable {rules : Rules} {old new : Entity} {s t : Option Json}

/-- Entities that fit an alphanumeric shape give the record back when they are exchanged. -/
theorem rel_record?_swap (hs : rules.shape.isAlphanumeric) (hold : old.Fits Json.Canonical rules)
    (hnew : new.Fits Json.Canonical rules) :
    Option.Rel ChangeRecord.Alike
      ((Correlation.ofFindings (rules.findings old new)).record?.map ChangeRecord.swap)
      (Correlation.ofFindings (rules.findings new old)).record? := by
  have hmirror : Finding.Mirror (rules.findings old new) (rules.findings new old) :=
    Finding.mirror_ofFields hs hold hnew
  -- first every finding is turned round where it stands, and then they change places
  rw [← Correlation.record?_swap, ← Correlation.ofFindings_swap]
  exact Correlation.rel_record?_of_perm hmirror.perm.symm fun o => (hmirror.lastMatch? o).symm

/-- An old entity without anything but objects gives the record back in the same order. -/
theorem record?_swap_of_hollow (hold : (Node.object old.root).Hollow) :
    (Correlation.ofFindings (rules.findings new old)).record?
      = (Correlation.ofFindings (rules.findings old new)).record?.map ChangeRecord.swap := by
  have hfindings : rules.findings new old = (rules.findings old new).map Finding.swap :=
    Finding.ofFields_swap_of_hollow hold
  rw [hfindings, Correlation.ofFindings_swap, Correlation.record?_swap]

/-- Whether two snapshots can be compared does not depend on their order. -/
theorem exists_diff_swap (h : ∃ r, rules.diff s t = .ok r) : ∃ r, rules.diff t s = .ok r := by
  obtain ⟨r, hr⟩ := h
  obtain ⟨old, new, hold, hnew, -⟩ := diff_eq_ok.mp hr
  exact ⟨_, diff_eq_ok.mpr ⟨new, old, hnew, hold, rfl⟩⟩

theorem rel_swap_of_diff_eq_ok (hs : rules.shape.isAlphanumeric)
    (hrules : rules.Preserves Json.Canonical) (hs' : ∀ v ∈ s, v.Canonical)
    (ht : ∀ v ∈ t, v.Canonical) {r r' : Option ChangeRecord} (hr : rules.diff s t = .ok r)
    (hr' : rules.diff t s = .ok r') :
    Option.Rel ChangeRecord.Alike (r.map ChangeRecord.swap) r' := by
  obtain ⟨old, new, hold, hnew, rfl⟩ := diff_eq_ok.mp hr
  obtain ⟨new', old', hnew', hold', rfl⟩ := diff_eq_ok.mp hr'
  -- both comparisons read the same two entities
  obtain rfl := Except.ok.inj (hold.symm.trans hold')
  obtain rfl := Except.ok.inj (hnew.symm.trans hnew')
  exact rel_record?_swap hs (Entity.fits_ofSnapshot Json.hereditary_canonical hs hrules hs' hold)
    (Entity.fits_ofSnapshot Json.hereditary_canonical hs hrules ht hnew)

/-- **The comparison the other way round.**  Under rules with an alphanumeric shape two snapshots
can be compared if they can be compared the other way round, and that gives the record back, up to
the order of changes and equality of values.  If the old snapshot is absent, the order is the
same. -/
theorem diff_swap (hs : rules.shape.isAlphanumeric) (hrules : rules.Preserves Json.Canonical)
    (hs' : ∀ v ∈ s, v.Canonical) (ht : ∀ v ∈ t, v.Canonical) :
    ((∃ r, rules.diff s t = .ok r) ↔ ∃ r', rules.diff t s = .ok r')
      ∧ ∀ r r', rules.diff s t = .ok r → rules.diff t s = .ok r' →
        Option.Rel ChangeRecord.Alike (r.map ChangeRecord.swap) r'
          ∧ (s = none ∨ s = some .null → r' = r.map ChangeRecord.swap) := by
  refine ⟨⟨exists_diff_swap, exists_diff_swap⟩, fun r r' hr hr' => ⟨?_, fun habsent => ?_⟩⟩
  · exact rel_swap_of_diff_eq_ok hs hrules hs' ht hr hr'
  · obtain ⟨old, new, hold, hnew, rfl⟩ := diff_eq_ok.mp hr
    obtain ⟨new', old', hnew', hold', rfl⟩ := diff_eq_ok.mp hr'
    obtain rfl := Except.ok.inj (hold.symm.trans hold')
    obtain rfl := Except.ok.inj (hnew.symm.trans hnew')
    exact record?_swap_of_hollow (Entity.hollow_ofSnapshot habsent hold)

end Rules

/-! ### A shelf -/

namespace Shelf

/-- A shelf with a label, notes and books, which are told apart by their signatures. -/
def rules : Rules where
  family := .item
  shape := ⟨"Shelf",
    [("label", .leaf .string), ("notes", .free),
      ("books", .objects "Book" [("sign", .leaf .string), ("title", .leaf .string)] (some "sign"))]⟩

/-- A book. -/
def book (sign title : String) : Json := .obj [("sign", .str sign), ("title", .str title)]

/-- A snapshot of a shelf. -/
def snapshot (label : String) (notes : Table Json) (books : List Json) : Json :=
  .obj [("books", .arr books), ("label", .str label), ("notes", .obj notes)]

/-- The shelf before. -/
def before : Json :=
  snapshot "A" [("dust", .bool true)] [book "1" "Emma", book "2" "Dune"]

/-- The shelf afterwards: one book has left, one has come, and one has another title. -/
def afterwards : Json :=
  snapshot "B" [("lamp", .int 1)] [book "3" "Kim", book "2" "Dune Messiah"]

theorem canonical_book (sign title : String) : (book sign title).Canonical := by
  rw [book, Json.canonical_obj_iff]
  refine ⟨Table.ascending_iff.mpr ?_, by simp [Json.Canonical]⟩
  show ["sign", "title"].Pairwise (· < ·)
  decide

theorem canonical_note {key : String} {v : Json} (hv : v.Canonical) :
    (Json.obj [(key, v)]).Canonical :=
  Json.canonical_obj_iff.mpr ⟨List.pairwise_singleton _ _, by simpa using hv⟩

theorem canonical_snapshot {label : String} {notes : Table Json} {books : List Json}
    (hnotes : (Json.obj notes).Canonical) (hbooks : ∀ b ∈ books, b.Canonical) :
    (snapshot label notes books).Canonical := by
  rw [snapshot, Json.canonical_obj_iff]
  refine ⟨Table.ascending_iff.mpr ?_, fun m hm => ?_⟩
  · show ["books", "label", "notes"].Pairwise (· < ·)
    decide
  · simp only [List.mem_cons, List.not_mem_nil, or_false] at hm
    rcases hm with rfl | rfl | rfl
    · exact Json.canonical_arr_iff.mpr hbooks
    · trivial
    · exact hnotes

theorem diff_swap_before :
    ∃ r r', rules.diff (some before) (some afterwards) = .ok (some r)
      ∧ rules.diff (some afterwards) (some before) = .ok (some r')
      ∧ r.size = 6 ∧ ChangeRecord.Alike r.swap r' := by
  have hbefore : ∀ v ∈ some before, v.Canonical := by
    intro v hv
    rw [← Option.some.inj hv]
    exact canonical_snapshot (canonical_note trivial) (by simp [canonical_book])
  have hafterwards : ∀ v ∈ some afterwards, v.Canonical := by
    intro v hv
    rw [← Option.some.inj hv]
    exact canonical_snapshot (canonical_note trivial) (by simp [canonical_book])
  have hshape : rules.shape.isAlphanumeric := by decide
  obtain ⟨hiff, hmirror⟩ := Rules.diff_swap hshape (Rules.preserves_of_reshape?_eq_none rfl _)
    hbefore hafterwards
  obtain ⟨r', hr'⟩ := hiff.mp ⟨_, rfl⟩
  obtain ⟨hrel, -⟩ := hmirror _ r' rfl hr'
  cases hrel with
  | some halike => exact ⟨_, _, rfl, hr', rfl, halike⟩

end Shelf

end SnapshotDiff
