import SnapshotDiff.Proofs.Instant.Forms
import SnapshotDiff.Proofs.Leaf

/-!
# Fields with a date and time

Such a field is compared by the text of the instant in UTC.  Two values, in whatever forms they are
written, have one text if and only if they write readings of one instant.

## Main results

* `Leaf.key_dateTime_eq_ok_iff` — the values of such a field are the texts that write a reading with
  an instant.
* `Rules.dateTime_unchanged_iff` — **nothing is told of such a field if and only if its values are
  of one instant.**
-/

namespace SnapshotDiff

open Instant (Reading)
open Instant.Reading (Writes SameInstant)

variable {s t k l : String} {a b : Reading}

/-- The key of a text is the text of the instant of a reading that it writes. -/
theorem Leaf.key_dateTime_eq_ok_iff : dateTime.key (.str s) = .ok k
    ↔ ∃ a u, Writes s a ∧ a.instant? = some u ∧ u.text = k := by
  have hkey : dateTime.key (.str s) = .ok k
      ↔ ∃ u, Instant.ofText? s = some u ∧ u.text = k := by
    rw [key]
    cases Instant.ofText? s <;> simp
  rw [hkey]
  constructor
  · rintro ⟨u, hu, hk⟩
    obtain ⟨a, ha, hau⟩ := Instant.ofText?_eq_some_iff.mp hu
    exact ⟨a, u, ha, hau, hk⟩
  · rintro ⟨a, u, ha, hau, hk⟩
    exact ⟨u, Instant.ofText?_eq_some_iff.mpr ⟨a, ha, hau⟩, hk⟩

/-- The key of a text is that of any reading which the text writes. -/
theorem Leaf.exists_instant_of_key (h : dateTime.key (.str s) = .ok k) (ha : Writes s a) :
    ∃ u, a.instant? = some u ∧ u.text = k := by
  obtain ⟨b, u, hb, hbu, hk⟩ := key_dateTime_eq_ok_iff.mp h
  refine ⟨u, ?_, hk⟩
  rw [← Instant.ofText?_of_writes ha, Instant.ofText?_of_writes hb, hbu]

/-- **Keys of dates and times** are equal if the texts write readings of one instant. -/
theorem Leaf.key_dateTime_eq_iff (hs : dateTime.key (.str s) = .ok k)
    (ht : dateTime.key (.str t) = .ok l) (ha : Writes s a) (hb : Writes t b) :
    k = l ↔ a.SameInstant b := by
  obtain ⟨u, hau, rfl⟩ := exists_instant_of_key hs ha
  obtain ⟨v, hbv, rfl⟩ := exists_instant_of_key ht hb
  exact Reading.text_eq_iff (Reading.isWritten_of_writes ha) (Reading.isWritten_of_writes hb) hau
    hbv

/-- **Fields with a date and time.**  A text is accepted if and only if it writes, in one of the
forms, a reading of a clock that has an instant.  Whatever readings two accepted texts write, their
keys are equal, and nothing is told of the field, if and only if the readings are of one instant. -/
theorem Rules.dateTime_unchanged_iff :
    (∀ s, (∃ k, Leaf.dateTime.key (.str s) = .ok k)
        ↔ ∃ a : Reading, Writes s a ∧ a.instant?.isSome)
      ∧ ∀ (s t k l : String) (a b : Reading), Leaf.dateTime.key (.str s) = .ok k →
        Leaf.dateTime.key (.str t) = .ok l → Writes s a → Writes t b →
          (k = l ↔ a.SameInstant b)
            ∧ (∀ (rules : Rules) (o : Owner) (name path : String),
              Finding.ofField rules o name path (some (.leaf (.str s) k))
                  (some (.leaf (.str t) l)) (.leaf .dateTime) = []
                ↔ a.SameInstant b)
            ∧ ∀ (rules : Rules) (name : String) {old new : Option Json} {r : Option ChangeRecord},
              rules.shape.isAddressable → rules.reshape? = none →
              (name, .leaf .dateTime) ∈ rules.shape.fields → rules.reportable name →
              old.bind (·.member? name) = some (.str s) →
              new.bind (·.member? name) = some (.str t) → rules.diff old new = .ok r →
                ∀ c, c ∈ (r.getD .nothing).fields ∧ Path.within c.path name
                  ↔ ¬a.SameInstant b
                    ∧ c = ⟨.modified, name, name, some (.str s), some (.str t)⟩ := by
  constructor
  · intro s
    constructor
    · rintro ⟨k, h⟩
      obtain ⟨a, u, ha, hau, -⟩ := Leaf.key_dateTime_eq_ok_iff.mp h
      exact ⟨a, ha, Option.isSome_of_eq_some hau⟩
    · rintro ⟨a, ha, hsome⟩
      obtain ⟨u, hau⟩ := Option.isSome_iff_exists.mp hsome
      exact ⟨u.text, Leaf.key_dateTime_eq_ok_iff.mpr ⟨a, u, ha, hau, rfl⟩⟩
  · intro s t k l a b hs ht ha hb
    have hkeys := Leaf.key_dateTime_eq_iff hs ht ha hb
    refine ⟨hkeys, fun rules o name path => ?_, ?_⟩
    · rw [Finding.ofField_leaf, ← hkeys]
      simp
    · intro rules name old new r haddress hreshape hname hreport hold hnew h c
      obtain ⟨k', l', hk, hl, htold⟩ :=
        mem_fields_leaf_iff haddress hreshape hname hreport hold hnew (by simp) (by simp) h
      obtain rfl : k = k' := Except.ok.inj (hs.symm.trans hk)
      obtain rfl : l = l' := Except.ok.inj (ht.symm.trans hl)
      rw [htold, ne_eq, hkeys]

/-- The offset takes the date back into the year before the year 0, and the texts are of different
forms.  A leap second is not the second that follows. -/
theorem Rules.dateTime_unchanged_iff_newYear :
    (∃ a b, Writes "0000-01-01T00:30:00.50+01:00" a ∧ Writes "-0001-12-31T23:30:00.5+0000" b
        ∧ a.SameInstant b)
      ∧ ∃ a b, Writes "2016-12-31T23:59:60Z" a ∧ Writes "2017-1-1" b ∧ ¬a.SameInstant b := by
  obtain ⟨haccepted, hkeys⟩ := dateTime_unchanged_iff
  constructor
  · obtain ⟨a, ha, -⟩ := (haccepted "0000-01-01T00:30:00.50+01:00").mp ⟨_, rfl⟩
    obtain ⟨b, hb, -⟩ := (haccepted "-0001-12-31T23:30:00.5+0000").mp ⟨_, rfl⟩
    exact ⟨a, b, ha, hb, (hkeys _ _ _ _ a b rfl rfl ha hb).1.mp rfl⟩
  · obtain ⟨a, ha, -⟩ := (haccepted "2016-12-31T23:59:60Z").mp ⟨_, rfl⟩
    obtain ⟨b, hb, -⟩ := (haccepted "2017-1-1").mp ⟨_, rfl⟩
    refine ⟨a, b, ha, hb, fun hsame => ?_⟩
    have hsame' := (hkeys _ _ _ _ a b rfl rfl ha hb).1.mpr hsame
    exact absurd hsame' (by decide)

end SnapshotDiff
