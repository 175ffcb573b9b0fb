import SnapshotDiff.Comparison
import SnapshotDiff.Proofs.Entity.Reading

/-!
# When a comparison succeeds

The comparison of two snapshots fails only where one of them cannot be read.

## Main definitions

* `Rules.findings` — what is found between two entities of the rules' family.

## Main results

* `Rules.diff_eq_ok` — the record of two snapshots, if both can be read.
* `Rules.diff_eq_error` — the error of the first that cannot be read.
-/

namespace SnapshotDiff

namespace Rules

variable {rules : Rules} {old new : Entity} {s t : Option Json} {r : Option ChangeRecord}

/-- The findings of two entities of the rules' family. -/
def findings (rules : Rules) (old new : Entity) : List Finding :=
  Finding.ofFields rules (.root rules.shape.typeName) "" old.root new.root rules.shape.fields

/-- The only failure of comparing entities is one of another family. -/
theorem between_eq (hold : old.family = rules.family) (hnew : new.family = rules.family) :
    Finding.between rules old new = .ok (rules.findings old new) := by
  have hnone : [old, new].find? (fun e => e.family ≠ rules.family) = none := by
    simp [hold, hnew]
  rw [Finding.between, hnone]
  rfl

theorem diffEntities_eq (hold : old.family = rules.family) (hnew : new.family = rules.family) :
    rules.diffEntities old new = .ok (Correlation.ofFindings (rules.findings old new)).record? := by
  rw [diffEntities, between_eq hold hnew]
  rfl

/-- **The comparison of two snapshots** succeeds if both can be read, and gives the record of what
is found between their entities. -/
theorem diff_eq_ok : rules.diff s t = .ok r ↔ ∃ old new,
    Entity.ofSnapshot rules s = .ok old ∧ Entity.ofSnapshot rules t = .ok new
      ∧ r = (Correlation.ofFindings (rules.findings old new)).record? := by
  have hentities : ∀ {old new}, Entity.ofSnapshot rules s = .ok old →
      Entity.ofSnapshot rules t = .ok new → rules.diffEntities old new
        = .ok (Correlation.ofFindings (rules.findings old new)).record? :=
    fun hold hnew => diffEntities_eq (Entity.family_of_ofSnapshot hold)
      (Entity.family_of_ofSnapshot hnew)
  rw [diff, Except.bind_eq_ok]
  constructor
  · rintro ⟨old, hold, h⟩
    obtain ⟨new, hnew, h⟩ := Except.bind_eq_ok.mp h
    rw [hentities hold hnew] at h
    exact ⟨old, new, hold, hnew, (Except.ok.inj h).symm⟩
  · rintro ⟨old, new, hold, hnew, rfl⟩
    exact ⟨old, hold, Except.bind_eq_ok.mpr ⟨new, hnew, hentities hold hnew⟩⟩

/-- To ignore paths makes no difference to how snapshots are read. -/
theorem ofSnapshot_ignoring (tops : List String) (s : Option Json) :
    Entity.ofSnapshot (rules.ignoring tops) s = Entity.ofSnapshot rules s := rfl

/-- The comparison of two snapshots fails with the error of the first that cannot be read. -/
theorem diff_eq_error {e : DiffError} : rules.diff s t = .error e ↔
    Entity.ofSnapshot rules s = .error e
      ∨ ∃ old, Entity.ofSnapshot rules s = .ok old ∧ Entity.ofSnapshot rules t = .error e := by
  cases hs : Entity.ofSnapshot rules s with
  | error e' => simp [diff, hs, bind, Except.bind]
  | ok old =>
    cases ht : Entity.ofSnapshot rules t with
    | error e' => simp [diff, hs, ht, bind, Except.bind]
    | ok new =>
      rw [diff_eq_ok.mpr ⟨old, new, hs, ht, rfl⟩]
      simp

end Rules

end SnapshotDiff
