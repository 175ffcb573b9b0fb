import SnapshotDiff.Proofs.Instant

/-!
# Readings of a clock

What a text says of an instant is the reading of a clock: a date, a time of day with a fraction, and
how far the clock is ahead of UTC.  Two readings are of one instant if they agree once the offset is
taken off, over the ends of days, months and years, and if the fractions agree as far as they count.

## Main definitions

* `Instant.seconds` — the seconds from the beginning of the year 1 to the instant.
* `Instant.Reading` — the reading of a clock.
* `Instant.Reading.SameInstant` — two readings are of one instant.

## Main results

* `Instant.seconds_ofLocal?` — taking off an offset moves the date along with the time of day.
* `Instant.text_inj` — different instants are written differently.
* `Instant.Reading.text_eq_iff` — **the instants of two readings have one text if and only if the
  readings are of one instant.**
-/

namespace SnapshotDiff

open Numeral (digitsValue)

/-! ### Digits -/

namespace Numeral

variable {ds es : List Char}

theorem digitsValue_cons (c : Char) (ds : List Char) :
    digitsValue (c :: ds) = 10 ^ ds.length * (c.toNat - '0'.toNat) + digitsValue ds := by
  rw [digitsValue, Nat.ofDigitChars_cons, Nat.ofDigitChars_eq_ofDigitChars_zero, Nat.mul_zero,
    Nat.zero_add, digitsValue]

/-- So many digits write a number below that power of ten. -/
theorem digitsValue_lt (h : ∀ c ∈ ds, c.isDigit) : digitsValue ds < 10 ^ ds.length := by
  induction ds with
  | nil => decide
  | cons c ds ih =>
    obtain ⟨hc, hds⟩ := List.forall_mem_cons.mp h
    have hdigit := toNat_of_isDigit hc
    have hzero : '0'.toNat = 48 := rfl
    have hlt := ih hds
    have hle : 10 ^ ds.length * (c.toNat - '0'.toNat) ≤ 10 ^ ds.length * 9 :=
      Nat.mul_le_mul_left _ (by omega)
    rw [digitsValue_cons, List.length_cons, pow_succ]
    omega

/-- **Digits are determined by their number and by what they write.** -/
theorem digitsValue_inj (hlength : ds.length = es.length) (hds : ∀ c ∈ ds, c.isDigit)
    (hes : ∀ c ∈ es, c.isDigit) (h : digitsValue ds = digitsValue es) : ds = es := by
  induction ds generalizing es with
  | nil => exact (List.length_eq_zero_iff.mp hlength.symm).symm
  | cons c ds ih =>
    cases es with
    | nil => cases hlength
    | cons d es =>
      obtain ⟨hc, htail⟩ := List.forall_mem_cons.mp hds
      obtain ⟨hd, htail'⟩ := List.forall_mem_cons.mp hes
      replace hlength : ds.length = es.length := Nat.succ.inj hlength
      have hlt := digitsValue_lt htail
      have hlt' := digitsValue_lt htail'
      rw [digitsValue_cons, digitsValue_cons, ← hlength] at h
      rw [← hlength] at hlt'
      -- the first digit is what remains after division by the power of ten
      have hfirst := congrArg (· / 10 ^ ds.length) h
      rw [Nat.mul_add_div (by positivity), Nat.mul_add_div (by positivity),
        Nat.div_eq_of_lt hlt, Nat.div_eq_of_lt hlt'] at hfirst
      have hdigit := toNat_of_isDigit hc
      have hdigit' := toNat_of_isDigit hd
      have hzero : '0'.toNat = 48 := rfl
      obtain rfl : c = d := Char.toNat_inj.mp (by omega)
      rw [ih hlength htail htail' (Nat.add_left_cancel h)]

end Numeral

namespace Instant

variable {t u shown utc : Instant} {offset : Int}

/-! ### Instants in seconds -/

/-- The seconds from the beginning of the year 1 to the instant. -/
def seconds (t : Instant) : Int := t.date.dayNumber * daySeconds + t.second

/-- An instant is determined by its seconds, by whether it is in a leap second, and by its
nanoseconds. -/
theorem eq_iff_of_isValid (ht : t.IsValid) (hu : u.IsValid) :
    t = u ↔ t.seconds = u.seconds ∧ t.leap = u.leap ∧ t.nanosecond = u.nanosecond := by
  constructor
  · rintro rfl
    exact ⟨rfl, rfl, rfl⟩
  · rintro ⟨hseconds, hleap, hnanosecond⟩
    have hsecond := ht.second
    have hsecond' := hu.second
    simp only [seconds, daySeconds] at hseconds hsecond hsecond'
    have hdate : t.date = u.date := Date.dayNumber_inj ht.date hu.date (by omega)
    rw [hdate] at hseconds
    obtain ⟨date, second, leap, nanosecond⟩ := t
    obtain ⟨date', second', leap', nanosecond'⟩ := u
    dsimp only at *
    obtain rfl : second = second' := by omega
    rw [hdate, hleap, hnanosecond]

/-- **Different instants are written differently.** -/
theorem text_inj (ht : t.IsValid) (hu : u.IsValid) (h : t.text = u.text) : t = u := by
  have hread := ofStored?_text ht
  rw [h, ofStored?_text hu] at hread
  exact (Option.some.inj hread).symm

/-! ### Taking off an offset -/

/-- The instant is on the day before, on the day after, or on the day that the clock shows. -/
theorem ofLocal?_cases (h : ofLocal? shown offset = some utc) : hasYear utc.date
    ∧ utc.leap = shown.leap ∧ utc.nanosecond = shown.nanosecond
    ∧ (shown.second < offset ∧ utc.date = shown.date.previous
        ∧ utc.second = (shown.second - offset + daySeconds).toNat
      ∨ (daySeconds : Int) ≤ shown.second - offset ∧ utc.date = shown.date.next
        ∧ utc.second = (shown.second - offset - daySeconds).toNat
      ∨ offset ≤ shown.second ∧ (shown.second : Int) - offset < daySeconds
        ∧ utc.date = shown.date ∧ utc.second = (shown.second - offset).toNat) := by
  simp only [ofLocal?] at h
  obtain ⟨hyear, hutc⟩ := Option.ite_none_right_eq_some.mp h
  replace hutc := Option.some.inj hutc
  rw [hutc] at hyear
  refine ⟨hyear, ?_⟩
  split at hutc
  · next hneg =>
    subst hutc
    exact ⟨rfl, rfl, Or.inl ⟨by omega, rfl, rfl⟩⟩
  · next hnonneg =>
    split at hutc
    · next hover =>
      subst hutc
      exact ⟨rfl, rfl, Or.inr (Or.inl ⟨hover, rfl, rfl⟩)⟩
    · next hwithin =>
      subst hutc
      exact ⟨rfl, rfl, Or.inr (Or.inr ⟨by omega, by omega, rfl, rfl⟩)⟩

/-- **Taking off an offset** of whole minutes, less than a day, moves the date along with the time
of day. -/
theorem seconds_ofLocal? (hshown : shown.IsValid) (hlow : -(daySeconds : Int) < offset)
    (hhigh : offset < daySeconds) (hminutes : offset % 60 = 0)
    (h : ofLocal? shown offset = some utc) :
    utc.IsValid ∧ utc.seconds = shown.seconds - offset ∧ utc.leap = shown.leap
      ∧ utc.nanosecond = shown.nanosecond := by
  obtain ⟨hdate, -, hsecond, hleap, hnanosecond⟩ := hshown
  obtain ⟨hyear, hutcLeap, hutcNanosecond, hcases⟩ := ofLocal?_cases h
  rw [← hutcNanosecond] at hnanosecond
  rw [← hutcLeap] at hleap
  have hday : daySeconds = 86400 := rfl
  simp only [seconds, hday]
  rcases hcases with ⟨hneg, hutc, hutcSecond⟩ | ⟨hover, hutc, hutcSecond⟩
    | ⟨hge, hlt, hutc, hutcSecond⟩
  · have hnumber := Date.dayNumber_previous hdate
    rw [← hutc] at hnumber
    refine ⟨⟨hutc ▸ Date.isValid_previous hdate, hyear, by omega, fun hl => ?_, hnanosecond⟩, ?_,
      hutcLeap, hutcNanosecond⟩
    · have hlast := hleap hl
      omega
    · rw [hnumber]
      omega
  · have hnumber := Date.dayNumber_next hdate
    rw [← hutc] at hnumber
    refine ⟨⟨hutc ▸ Date.isValid_next hdate, hyear, by omega, fun hl => ?_, hnanosecond⟩, ?_,
      hutcLeap, hutcNanosecond⟩
    · have hlast := hleap hl
      omega
    · rw [hnumber]
      omega
  · refine ⟨⟨hutc ▸ hdate, hyear, by omega, fun hl => ?_, hnanosecond⟩, ?_, hutcLeap,
      hutcNanosecond⟩
    · have hlast := hleap hl
      omega
    · rw [hutc]
      omega

/-- The reading of a clock, if it is one, shows a valid instant. -/
theorem isValid_ofFields? {year : Int} {month day hour minute second nanosecond : Nat}
    (hnanosecond : nanosecond < 1000000000)
    (h : ofFields? year month day hour minute second nanosecond = some t) :
    t.IsValid ∧ t.seconds = (Date.mk year month day).dayNumber * daySeconds
        + ((hour * 60 + minute) * 60 + min second 59 : Nat)
      ∧ t.leap = decide (second = 60) ∧ t.nanosecond = nanosecond := by
  simp only [ofFields?] at h
  obtain ⟨hcheck, ht⟩ := Option.ite_none_right_eq_some.mp h
  obtain rfl := Option.some.inj ht
  simp only [Bool.and_eq_true, decide_eq_true_eq] at hcheck
  obtain ⟨⟨⟨⟨hdate, hyear⟩, hhour⟩, hminute⟩, hsecond⟩ := hcheck
  refine ⟨⟨hdate, hyear, ?_, fun hl => ?_, hnanosecond⟩, rfl, rfl, rfl⟩
  · simp only [daySeconds]
    omega
  · have hsixty := of_decide_eq_true hl
    dsimp only
    omega

/-! ### Fractions -/

/-- The first nine digits of a fraction; those that are missing are zeros. -/
def nineDigits (ds : List Char) : List Char := (ds ++ List.replicate 9 '0').take 9

theorem length_nineDigits (ds : List Char) : (nineDigits ds).length = 9 := by
  simp [nineDigits]

theorem isDigit_nineDigits {ds : List Char} (h : ∀ c ∈ ds, c.isDigit) :
    ∀ c ∈ nineDigits ds, c.isDigit := by
  intro c hc
  rcases List.mem_append.mp (List.mem_of_mem_take hc) with hc | hc
  · exact h c hc
  · exact (List.mem_replicate.mp hc).2 ▸ by decide

theorem nanoseconds_eq (ds : List Char) : nanoseconds ds = digitsValue (nineDigits ds) := by
  have hnine : nineDigits ds = ds.take 9 ++ List.replicate (9 - (ds.take 9).length) '0' := by
    rw [nineDigits, List.take_append, List.take_replicate, List.length_take]
    congr 2
    omega
  rw [hnine, Numeral.digitsValue_append_zeros]
  rfl

theorem nanoseconds_lt {ds : List Char} (h : ∀ c ∈ ds, c.isDigit) :
    nanoseconds ds < 1000000000 := by
  have hlt := Numeral.digitsValue_lt (isDigit_nineDigits h)
  rw [length_nineDigits] at hlt
  rw [nanoseconds_eq]
  exact hlt

/-- Fractions count the same nanoseconds if they agree in their first nine digits. -/
theorem nanoseconds_eq_iff {ds es : List Char} (hds : ∀ c ∈ ds, c.isDigit)
    (hes : ∀ c ∈ es, c.isDigit) :
    nanoseconds ds = nanoseconds es ↔ nineDigits ds = nineDigits es := by
  rw [nanoseconds_eq, nanoseconds_eq]
  constructor
  · exact Numeral.digitsValue_inj ((length_nineDigits ds).trans (length_nineDigits es).symm)
      (isDigit_nineDigits hds) (isDigit_nineDigits hes)
  · exact fun h => by rw [h]

/-! ### Readings -/

/-- The reading of a clock. -/
structure Reading where
  date : Date
  hour : Nat
  minute : Nat
  /-- The second of the minute, which is 60 in a leap second. -/
  second : Nat
  /-- The digits of the fraction of the second. -/
  fraction : List Char
  /-- The seconds that the clock is ahead of UTC. -/
  offset : Int

namespace Reading

variable {a b : Reading}

/-- What no text can be mistaken about: digits are digits, and offsets are whole minutes, less than
a day. -/
structure IsWritten (a : Reading) : Prop where
  fraction : ∀ c ∈ a.fraction, c.isDigit
  low : -(daySeconds : Int) < a.offset
  high : a.offset < daySeconds
  minutes : a.offset % 60 = 0

/-- The instant at which the clock is read, if there are such a date and time of day. -/
def instant? (a : Reading) : Option Instant :=
  (ofFields? a.date.year a.date.month a.date.day a.hour a.minute a.second
    (nanoseconds a.fraction)).bind (ofLocal? · a.offset)

/-- The seconds from the beginning of the year 1 that the clock shows, less what it is ahead. -/
def seconds (a : Reading) : Int :=
  a.date.dayNumber * 86400 + ((a.hour * 60 + a.minute) * 60 + a.second : Nat) - a.offset

/-- The readings are of one instant: the seconds are equal, the fractions agree in their first nine
digits, and both or neither are in a leap second. -/
def SameInstant (a b : Reading) : Prop :=
  a.seconds = b.seconds ∧ nineDigits a.fraction = nineDigits b.fraction
    ∧ (a.second = 60 ↔ b.second = 60)

/-- The instant of a reading.  In a leap second it is attached to the second before. -/
theorem isValid_instant? (ha : a.IsWritten) (h : a.instant? = some t) :
    t.IsValid ∧ t.seconds + (if a.second = 60 then 1 else 0) = a.seconds
      ∧ t.leap = decide (a.second = 60) ∧ t.nanosecond = nanoseconds a.fraction := by
  obtain ⟨shown, hshown, hlocal⟩ := Option.bind_eq_some_iff.mp h
  have hsixty : a.second ≤ 60 := by
    have hcheck := (Option.ite_none_right_eq_some.mp hshown).1
    simp only [Bool.and_eq_true, decide_eq_true_eq] at hcheck
    exact hcheck.2
  obtain ⟨hvalid, hseconds, hleap, hnanosecond⟩ :=
    isValid_ofFields? (nanoseconds_lt ha.fraction) hshown
  obtain ⟨hutc, hutcSeconds, hutcLeap, hutcNanosecond⟩ :=
    seconds_ofLocal? hvalid ha.low ha.high ha.minutes hlocal
  refine ⟨hutc, ?_, hutcLeap.trans hleap, hutcNanosecond.trans hnanosecond⟩
  have hdate : Date.mk a.date.year a.date.month a.date.day = a.date := rfl
  rw [hutcSeconds, hseconds, hdate, seconds, daySeconds]
  split <;> omega

/-- **Readings are written alike if they are of one instant.** -/
theorem text_eq_iff (ha : a.IsWritten) (hb : b.IsWritten) (ht : a.instant? = some t)
    (hu : b.instant? = some u) : t.text = u.text ↔ a.SameInstant b := by
  obtain ⟨hvalid, hseconds, hleap, hnanosecond⟩ := isValid_instant? ha ht
  obtain ⟨hvalid', hseconds', hleap', hnanosecond'⟩ := isValid_instant? hb hu
  have htext : t.text = u.text ↔ t = u := ⟨text_inj hvalid hvalid', fun h => by rw [h]⟩
  rw [htext, eq_iff_of_isValid hvalid hvalid', hleap, hleap', decide_eq_decide, hnanosecond,
    hnanosecond', nanoseconds_eq_iff ha.fraction hb.fraction, SameInstant, ← hseconds, ← hseconds']
  constructor
  · rintro ⟨hsame, hsixty, hnine⟩
    refine ⟨?_, hnine, hsixty⟩
    simp only [hsame, hsixty]
  · rintro ⟨hsame, hnine, hsixty⟩
    refine ⟨?_, hsixty, hnine⟩
    simp only [hsixty] at hsame
    omega

end Reading

end Instant

end SnapshotDiff
