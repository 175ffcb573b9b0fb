import SnapshotDiff.Proofs.Instant.Clock

/-!
# The forms of instants

The texts that are read as instants write the reading of a clock in one of three forms: a timestamp
with exact digits, a timestamp with loose digits and an offset, and a bare date.  Each form is given
by what its texts look like, and its scan reads these texts and no others.  A text that is of two
forms writes the same instant in both.

## Main definitions

* `Instant.Reading.IsExact`, `Instant.Reading.IsLoose`, `Instant.Reading.IsBare` — the three forms.
* `Instant.Reading.Writes` — a text writes a reading in one of them.

## Main results

* `Instant.exactTimestamp_eq_some_iff`, `Instant.looseTimestamp_eq_some_iff`,
  `Instant.bareDate_eq_some_iff` — what each of the scans reads.
* `Instant.Reading.ofText?_of_writes` — the instant of a text is that of any reading it writes.
* `Instant.ofText?_eq_some_iff` — **the texts with an instant are those that write a reading which
  has one.**
-/

namespace SnapshotDiff

open Numeral (IsNumber)

namespace Instant

namespace Reading

/-- A timestamp with exact digits, such as `2024-03-01T10:00:00.5+01:00`. -/
def IsExact (a : Reading) (cs : List Char) : Prop :=
  ∃ (year : Nat) (ds : List Char) (c : Char) (ts zs : List Char), cs = ds ++ c :: (ts ++ zs)
    ∧ a.date.year = year
    ∧ IsDateText (IsNumber 4 4) (IsNumber 2 2) year a.date.month a.date.day ds
    ∧ (c = 'T' ∨ c = 't' ∨ c = ' ')
    ∧ IsTimeText (IsNumber 2 2) a.hour a.minute a.second a.fraction ts ∧ IsZone a.offset zs

/-- A timestamp with loose digits, such as `2024-3-1T10:00:00.5 +0100`. -/
def IsLoose (a : Reading) (cs : List Char) : Prop :=
  ∃ ds ts bs zs, cs = ds ++ 'T' :: (ts ++ (bs ++ zs))
    ∧ IsDateText IsLooseYear IsLooseNumber a.date.year a.date.month a.date.day ds
    ∧ IsTimeText IsLooseNumber a.hour a.minute a.second a.fraction ts
    ∧ (∀ c ∈ bs, Text.isBlank c) ∧ IsOffset IsLooseSeparator a.offset zs

/-- A date, such as `2024-3-1`, which is midnight of UTC. -/
def IsBare (a : Reading) (cs : List Char) : Prop :=
  IsDateText IsLooseYear IsLooseNumber a.date.year a.date.month a.date.day cs
    ∧ a = ⟨a.date, 0, 0, 0, [], 0⟩

/-- The text writes the reading in one of the three forms. -/
def Writes (s : String) (a : Reading) : Prop :=
  a.IsExact s.toList ∨ a.IsLoose s.toList ∨ a.IsBare s.toList

end Reading

open Reading

variable {a b : Reading} {cs : List Char} {o : Int} {zs : List Char} {x : Option Instant}

/-! ### What stands behind a part -/

/-- A time may be followed by an offset, with white space in front of it. -/
theorem ends_time_of_sign {c : Char} (h : c = '+' ∨ c = '-' ∨ c = '\u2212') :
    c ≠ '.' ∧ c.isDigit = false := by
  rcases h with rfl | rfl | rfl <;> decide

theorem ends_time_of_zone (h : IsZone o zs) : ∀ c ∈ zs.head?, c ≠ '.' ∧ c.isDigit = false := by
  rcases h with ⟨-, rfl | rfl⟩ | h
  · simp
  · simp
  · obtain ⟨c, cs, rfl, hc⟩ := exists_sign_of_isOffset h
    simpa using ends_time_of_sign hc

theorem ends_time_of_blanks {bs : List Char} (hbs : ∀ c ∈ bs, Text.isBlank c)
    {isSeparator : List Char → Prop} (h : IsOffset isSeparator o zs) :
    ∀ c ∈ (bs ++ zs).head?, c ≠ '.' ∧ c.isDigit = false := by
  cases bs with
  | nil =>
    obtain ⟨c, cs, rfl, hc⟩ := exists_sign_of_isOffset h
    simpa using ends_time_of_sign hc
  | cons c bs =>
    have hblank := hbs c List.mem_cons_self
    have hpoint : c ≠ '.' := by
      rintro rfl
      exact absurd hblank (by decide)
    have hdigit : c.isDigit = false := by
      by_contra hdigit
      rw [Text.isBlank_of_isDigit (by simpa using hdigit)] at hblank
      cases hblank
    simpa using And.intro hpoint hdigit

/-- No white space stands in front of an offset. -/
theorem ends_blanks_of_isOffset {isSeparator : List Char → Prop} (h : IsOffset isSeparator o zs) :
    ∀ c ∈ zs.head?, Text.isBlank c = false := by
  obtain ⟨c, cs, rfl, hc⟩ := exists_sign_of_isOffset h
  have hblank : Text.isBlank c = false := by rcases hc with rfl | rfl | rfl <;> decide
  simpa using hblank

/-! ### Timestamps with exact digits -/

/-- The texts that are read as timestamps with exact digits. -/
theorem exactTimestamp_eq_some_iff :
    exactTimestamp cs = some (x, []) ↔ ∃ a : Reading, a.IsExact cs ∧ a.instant? = x := by
  constructor
  · intro h
    obtain ⟨year, month, day, ds, mid, rfl, hds, h₁⟩ :=
      exists_of_behindDate (Scan.reads_number 4 4) (Scan.reads_number 2 2) h
    obtain ⟨u, mid', hmark, h₂⟩ := Scan.exists_of_bind h₁
    obtain ⟨c, hc, rfl⟩ := Scan.one_eq_some hmark
    obtain ⟨hour, minute, second, fs, ts, mid'', rfl, hts, h₃⟩ :=
      exists_of_behindTime (Scan.reads_number 2 2) h₂
    obtain ⟨o, rest, hzone, hpure⟩ := Scan.exists_of_bind h₃
    obtain ⟨zs, rfl, hzs⟩ := reads_zone.sound hzone
    obtain ⟨rfl, rfl⟩ := Scan.pure_eq_some_iff.mp hpure
    refine ⟨⟨⟨year, month, day⟩, hour, minute, second, fs, o⟩,
      ⟨year, ds, c, ts, zs, by simp, rfl, hds, by simpa [or_assoc] using hc, hts, hzs⟩, rfl⟩
  · rintro ⟨a, ⟨year, ds, c, ts, zs, rfl, hyear, hds, hc, hts, hzs⟩, rfl⟩
    have hmark : c.isDigit = false ∧ (c = 'T' || c = 't' || c = ' ') = true := by
      rcases hc with rfl | rfl | rfl <;> decide
    have hread : Scan.orElse zulu (offset (Scan.mark ':')) (zs ++ []) = some (a.offset, []) :=
      reads_zone.complete hzs (by simp)
    rw [List.append_nil] at hread
    refine (behindDate_append (Scan.reads_number 4 4) (Scan.reads_number 2 2) hds
      (by simpa using hmark.1)).trans ?_
    refine (Scan.bind_eq (Scan.one_cons hmark.2 _)).trans ?_
    refine (behindTime_append (Scan.reads_number 2 2) hts (ends_time_of_zone hzs)).trans ?_
    refine (Scan.bind_eq hread).trans ?_
    rw [instant?, hyear]
    rfl

/-! ### Timestamps with loose digits -/

/-- The texts that are read as timestamps with loose digits. -/
theorem looseTimestamp_eq_some_iff :
    looseTimestamp cs = some (x, []) ↔ ∃ a : Reading, a.IsLoose cs ∧ a.instant? = x := by
  constructor
  · intro h
    obtain ⟨year, month, day, ds, mid, rfl, hds, h₁⟩ :=
      exists_of_behindDate reads_looseYear reads_looseNumber h
    obtain ⟨u, mid', hmark, h₂⟩ := Scan.exists_of_bind h₁
    obtain rfl := Scan.mark_eq_some hmark
    obtain ⟨hour, minute, second, fs, ts, mid'', rfl, hts, h₃⟩ :=
      exists_of_behindTime reads_looseNumber h₂
    obtain ⟨u', rest, hblanks, h₄⟩ := Scan.exists_of_bind h₃
    obtain ⟨bs, rfl, hbs⟩ := Scan.reads_blanks.sound hblanks
    obtain ⟨o, rest', hoffset, hpure⟩ := Scan.exists_of_bind h₄
    obtain ⟨zs, rfl, hzs⟩ := reads_looseOffset.sound hoffset
    obtain ⟨rfl, rfl⟩ := Scan.pure_eq_some_iff.mp hpure
    exact ⟨⟨⟨year, month, day⟩, hour, minute, second, fs, o⟩,
      ⟨ds, ts, bs, zs, by simp, hds, hts, hbs, hzs⟩, rfl⟩
  · rintro ⟨a, ⟨ds, ts, bs, zs, rfl, hds, hts, hbs, hzs⟩, rfl⟩
    have hblanks : Scan.blanks (bs ++ zs) = some ((), zs) :=
      Scan.reads_blanks.complete hbs (ends_blanks_of_isOffset hzs)
    have hread : offset looseSeparator (zs ++ []) = some (a.offset, []) :=
      reads_looseOffset.complete hzs (by simp)
    rw [List.append_nil] at hread
    refine (behindDate_append reads_looseYear reads_looseNumber hds (by simp)).trans ?_
    refine (Scan.bind_eq (Scan.mark_cons _ _)).trans ?_
    refine (behindTime_append reads_looseNumber hts (ends_time_of_blanks hbs hzs)).trans ?_
    refine (Scan.bind_eq hblanks).trans ?_
    exact Scan.bind_eq hread

/-! ### Dates -/

/-- Behind a date anything else is left unread. -/
theorem bareDate_append {year : Int} {month day : Nat} {ds mid : List Char}
    (h : IsDateText IsLooseYear IsLooseNumber year month day ds)
    (hmid : ∀ c ∈ mid.head?, c.isDigit = false) :
    bareDate (ds ++ mid) = some (ofFields? year month day 0 0 0 0, mid) :=
  behindDate_append reads_looseYear reads_looseNumber h hmid

/-- At midnight of UTC nothing is taken off. -/
theorem Reading.instant?_midnight (d : Date) :
    Reading.instant? ⟨d, 0, 0, 0, [], 0⟩ = ofFields? d.year d.month d.day 0 0 0 0 := by
  have hzero : nanoseconds [] = 0 := rfl
  rw [instant?, hzero]
  cases h : ofFields? d.year d.month d.day 0 0 0 0 with
  | none => rfl
  | some t => exact ofLocal?_zero (isValid_ofFields? (by decide) h).1

/-- The texts that are read as dates. -/
theorem bareDate_eq_some_iff :
    bareDate cs = some (x, []) ↔ ∃ a : Reading, a.IsBare cs ∧ a.instant? = x := by
  constructor
  · intro h
    obtain ⟨year, month, day, ds, mid, rfl, hds, hpure⟩ :=
      exists_of_behindDate reads_looseYear reads_looseNumber h
    obtain ⟨rfl, rfl⟩ := Scan.pure_eq_some_iff.mp hpure
    rw [List.append_nil]
    exact ⟨⟨⟨year, month, day⟩, 0, 0, 0, [], 0⟩, ⟨hds, rfl⟩, instant?_midnight ⟨year, month, day⟩⟩
  · rintro ⟨a, ⟨hds, ha⟩, rfl⟩
    rw [ha, instant?_midnight, ← List.append_nil cs]
    exact bareDate_append hds (by simp)

/-! ### Texts of two forms -/

/-- Exact digits are loose digits. -/
theorem isLooseNumber_of_isNumber {n : Nat} {ds : List Char} (h : IsNumber 2 2 n ds) :
    IsLooseNumber n ds :=
  ⟨[], ds, rfl, List.forall_mem_nil _, { h with least := Nat.le_of_succ_le h.least }⟩

theorem isLooseYear_of_isNumber {n : Nat} {ds : List Char} (h : IsNumber 4 4 n ds) :
    IsLooseYear n ds := by
  have hplain : IsNumber 1 4 n ds := { h with least := Nat.le_trans (by decide) h.least }
  exact .plain (List.forall_mem_nil _) hplain

theorem IsDateText.loose {year month day : Nat} {ds : List Char}
    (h : IsDateText (IsNumber 4 4) (IsNumber 2 2) year month day ds) :
    IsDateText IsLooseYear IsLooseNumber (year : Int) month day ds := by
  obtain ⟨ys, ms, ds, rfl, hys, hms, hds⟩ := h
  exact ⟨ys, ms, ds, rfl, isLooseYear_of_isNumber hys, isLooseNumber_of_isNumber hms,
    isLooseNumber_of_isNumber hds⟩

theorem IsTimeText.loose {hour minute second : Nat} {fs ts : List Char}
    (h : IsTimeText (IsNumber 2 2) hour minute second fs ts) :
    IsTimeText IsLooseNumber hour minute second fs ts := by
  obtain ⟨hs, ns, ss, ps, rfl, hhs, hns, hss, hps⟩ := h
  exact ⟨hs, ns, ss, ps, rfl, isLooseNumber_of_isNumber hhs, isLooseNumber_of_isNumber hns,
    isLooseNumber_of_isNumber hss, hps⟩

theorem IsOffset.loose (h : IsOffset (· = [':']) o zs) : IsOffset IsLooseSeparator o zs := by
  obtain ⟨s, c, hours, minutes, hs, ss, ms, rfl, hc, hhs, rfl, hms, hless, ho⟩ := h
  exact ⟨s, c, hours, minutes, hs, [':'], ms, rfl, hc, hhs, by simp [IsLooseSeparator], hms, hless,
    ho⟩

/-- A timestamp with exact digits, read as one with loose digits, is the same instant. -/
theorem looseTimestamp_of_isExact (h : a.IsExact cs) :
    looseTimestamp cs = none ∨ looseTimestamp cs = some (a.instant?, []) := by
  obtain ⟨year, ds, c, ts, zs, rfl, hyear, hds, hc, hts, hzs⟩ := h
  have hdigit : c.isDigit = false := by rcases hc with rfl | rfl | rfl <;> decide
  have hends : ∀ d ∈ (c :: (ts ++ zs)).head?, d.isDigit = false := by simpa using hdigit
  have hzone := ends_time_of_zone hzs
  by_cases hmark : c = 'T'
  · subst hmark
    rcases hzs with ⟨-, hz⟩ | hoffset
    · -- a `Z` is no offset
      left
      refine (behindDate_append reads_looseYear reads_looseNumber hds.loose hends).trans ?_
      refine (Scan.bind_eq (Scan.mark_cons _ _)).trans ?_
      refine (behindTime_append reads_looseNumber hts.loose hzone).trans ?_
      rcases hz with rfl | rfl <;> rfl
    · right
      refine looseTimestamp_eq_some_iff.mpr ⟨a, ⟨ds, ts, [], zs, rfl, ?_, hts.loose,
        List.forall_mem_nil _, hoffset.loose⟩, rfl⟩
      exact hyear ▸ hds.loose
  · left
    refine (behindDate_append reads_looseYear reads_looseNumber hds.loose hends).trans ?_
    exact Scan.bind_none (Scan.mark_eq_none hmark)

/-- A timestamp is no date, since more is written behind the date. -/
theorem bareDate_of_isExact (h : a.IsExact cs) : bareDate cs ≠ some (x, []) := by
  obtain ⟨year, ds, c, ts, zs, rfl, -, hds, hc, -⟩ := h
  have hdigit : c.isDigit = false := by rcases hc with rfl | rfl | rfl <;> decide
  rw [bareDate_append hds.loose (by simpa using hdigit)]
  simp

theorem bareDate_of_isLoose (h : a.IsLoose cs) : bareDate cs ≠ some (x, []) := by
  obtain ⟨ds, ts, bs, zs, rfl, hds, -⟩ := h
  rw [bareDate_append hds (by simp)]
  simp

/-- A date is no timestamp. -/
theorem looseTimestamp_of_isBare (h : a.IsBare cs) : looseTimestamp cs = none := by
  rw [← List.append_nil cs]
  exact (behindDate_append reads_looseYear reads_looseNumber h.1 (by simp)).trans rfl

/-! ### Texts of instants -/

variable {s : String} {t : Instant}

theorem exactTimestamp_run?_of_isLoose (h : a.IsLoose s.toList) :
    exactTimestamp.run? s = none ∨ exactTimestamp.run? s = some a.instant? := by
  cases hrun : exactTimestamp.run? s with
  | none => exact Or.inl rfl
  | some x =>
    obtain ⟨b, hb, rfl⟩ := exactTimestamp_eq_some_iff.mp (Scan.run?_eq_some_iff.mp hrun)
    have hread := looseTimestamp_eq_some_iff.mpr ⟨a, h, rfl⟩
    rcases looseTimestamp_of_isExact hb with hnone | hsome
    · rw [hnone] at hread
      cases hread
    · rw [hsome] at hread
      exact Or.inr (congrArg some (Prod.mk.inj (Option.some.inj hread)).1)

theorem exactTimestamp_run?_of_isBare (h : a.IsBare s.toList) :
    exactTimestamp.run? s = none := by
  refine Scan.run?_eq_none_iff.mpr fun x hx => ?_
  obtain ⟨b, hb, -⟩ := exactTimestamp_eq_some_iff.mp hx
  exact bareDate_of_isExact hb (bareDate_eq_some_iff.mpr ⟨a, h, rfl⟩)

/-- **The instant of a text** is that of any reading that the text writes. -/
theorem ofText?_of_writes (h : Writes s a) : ofText? s = a.instant? := by
  rw [ofText?]
  rcases h with h | h | h
  · have hexact := Scan.run?_eq_some_iff.mpr (exactTimestamp_eq_some_iff.mpr ⟨a, h, rfl⟩)
    have hbare := Scan.run?_eq_none_iff.mpr fun x => bareDate_of_isExact (x := x) h
    rw [hexact, hbare]
    rcases looseTimestamp_of_isExact h with hnone | hsome
    · have hloose : looseTimestamp.run? s = none :=
        Scan.run?_eq_none_iff.mpr fun x hx => by simp [hnone] at hx
      rw [hloose]
      cases a.instant? <;> rfl
    · rw [Scan.run?_eq_some_iff.mpr hsome]
      cases a.instant? <;> rfl
  · have hloose := Scan.run?_eq_some_iff.mpr (looseTimestamp_eq_some_iff.mpr ⟨a, h, rfl⟩)
    have hbare := Scan.run?_eq_none_iff.mpr fun x => bareDate_of_isLoose (x := x) h
    rw [hloose, hbare]
    rcases exactTimestamp_run?_of_isLoose h with hexact | hexact
    · rw [hexact]
      cases a.instant? <;> rfl
    · rw [hexact]
      cases a.instant? <;> rfl
  · have hbare := Scan.run?_eq_some_iff.mpr (bareDate_eq_some_iff.mpr ⟨a, h, rfl⟩)
    have hloose : looseTimestamp.run? s = none :=
      Scan.run?_eq_none_iff.mpr fun x hx => by simp [looseTimestamp_of_isBare h] at hx
    rw [exactTimestamp_run?_of_isBare h, hloose, hbare]
    rfl

/-- **The texts with an instant** are those that write a reading which has one. -/
theorem ofText?_eq_some_iff : ofText? s = some t ↔ ∃ a, Writes s a ∧ a.instant? = some t := by
  constructor
  · intro h
    obtain ⟨a, ha⟩ : ∃ a, Writes s a := by
      by_contra hnone
      have hexact : exactTimestamp.run? s = none := Scan.run?_eq_none_iff.mpr fun x hx =>
        have ⟨a, ha, _⟩ := exactTimestamp_eq_some_iff.mp hx
        hnone ⟨a, Or.inl ha⟩
      have hloose : looseTimestamp.run? s = none := Scan.run?_eq_none_iff.mpr fun x hx =>
        have ⟨a, ha, _⟩ := looseTimestamp_eq_some_iff.mp hx
        hnone ⟨a, Or.inr (Or.inl ha)⟩
      have hbare : bareDate.run? s = none := Scan.run?_eq_none_iff.mpr fun x hx =>
        have ⟨a, ha, _⟩ := bareDate_eq_some_iff.mp hx
        hnone ⟨a, Or.inr (Or.inr ha)⟩
      rw [ofText?, hexact, hloose, hbare] at h
      cases h
    exact ⟨a, ha, ofText?_of_writes ha ▸ h⟩
  · rintro ⟨a, ha, h⟩
    exact (ofText?_of_writes ha).trans h

/-- The second text writes a reading of a day that there was not. -/
example : (ofText? "2024-03-01T11:00:00+01:00").map text = some "2024-03-01T10:00:00Z"
    ∧ ofText? "2023-02-29" = none := by decide

/-! ### Written readings -/

theorem isDigit_of_isFraction {fs ps : List Char} (h : IsFraction fs ps) : ∀ c ∈ fs, c.isDigit := by
  rcases h with ⟨rfl, -⟩ | ⟨-, -, hfs⟩
  · exact List.forall_mem_nil _
  · exact hfs

theorem isDigit_of_isTimeText {isNumber : Nat → List Char → Prop} {hour minute second : Nat}
    {fs ts : List Char} (h : IsTimeText isNumber hour minute second fs ts) :
    ∀ c ∈ fs, c.isDigit := by
  obtain ⟨hs, ns, ss, ps, -, -, -, -, hps⟩ := h
  exact isDigit_of_isFraction hps

/-- Offsets are whole minutes, less than a day. -/
theorem bounds_of_isOffset {isSeparator : List Char → Prop} (h : IsOffset isSeparator o zs) :
    -(daySeconds : Int) < o ∧ o < daySeconds ∧ o % 60 = 0 := by
  obtain ⟨s, c, hours, minutes, hs, ss, ms, -, hc, -, -, -, hless, rfl⟩ := h
  rw [daySeconds]
  rcases hc with ⟨rfl, -⟩ | ⟨rfl, -⟩ <;> omega

theorem bounds_of_isZone (h : IsZone o zs) :
    -(daySeconds : Int) < o ∧ o < daySeconds ∧ o % 60 = 0 := by
  rcases h with ⟨rfl, -⟩ | h
  · decide
  · exact bounds_of_isOffset h

theorem Reading.isWritten_of_writes (h : Writes s a) : a.IsWritten := by
  rcases h with ⟨_, _, _, _, _, -, -, -, -, hts, hzs⟩ | ⟨_, _, _, _, -, -, hts, -, hzs⟩ | ⟨-, ha⟩
  · obtain ⟨hlow, hhigh, hminutes⟩ := bounds_of_isZone hzs
    exact ⟨isDigit_of_isTimeText hts, hlow, hhigh, hminutes⟩
  · obtain ⟨hlow, hhigh, hminutes⟩ := bounds_of_isOffset hzs
    exact ⟨isDigit_of_isTimeText hts, hlow, hhigh, hminutes⟩
  · have hbounds : -(daySeconds : Int) < 0 ∧ (0 : Int) < daySeconds := by decide
    rw [ha]
    exact ⟨List.forall_mem_nil _, hbounds.1, hbounds.2, rfl⟩

end Instant

end SnapshotDiff
