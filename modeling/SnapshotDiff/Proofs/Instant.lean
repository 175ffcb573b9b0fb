import SnapshotDiff.Proofs.Date
import SnapshotDiff.Proofs.Instant.Parts

/-!
# Instants are read back

An instant is written with as many digits as the form of stored entries reads, so every step of the
scan ends where the next part of the text begins.

## Main definitions

* `Instant.IsValid` — there is such a day and such a second in it, and a leap second ends a minute.

## Main results

* `Instant.ofStored?_text` — **a valid instant is read back from its text.**
-/

namespace SnapshotDiff

open Numeral (digitsValue IsNumber)

namespace Instant

variable {n width : Nat} {rest : List Char}

/-! ### Padded numbers -/

theorem isDigit_zeroPadded (width n : Nat) : ∀ c ∈ zeroPadded width n, c.isDigit := by
  intro c hc
  rw [zeroPadded, List.mem_append, List.mem_replicate] at hc
  rcases hc with ⟨-, rfl⟩ | hc
  · decide
  · exact Nat.isDigit_of_mem_toDigits (by decide) (by decide) hc

theorem digitsValue_zeroPadded (width n : Nat) : digitsValue (zeroPadded width n) = n := by
  rw [zeroPadded, Numeral.digitsValue_zeros_append, Numeral.digitsValue_toDigits]

theorem le_length_zeroPadded (width n : Nat) : width ≤ (zeroPadded width n).length := by
  simp only [zeroPadded, List.length_append, List.length_replicate]
  omega

theorem length_zeroPadded (hwidth : 0 < width) (hn : n < 10 ^ width) :
    (zeroPadded width n).length = width := by
  have hle := (Nat.length_toDigits_le_iff (b := 10) (n := n) (by decide) hwidth).mpr hn
  simp only [zeroPadded, List.length_append, List.length_replicate]
  omega

/-- A padded number is a number of that many digits, or of more where it is greater. -/
theorem isNumber_zeroPadded (width n : Nat) :
    IsNumber width (zeroPadded width n).length n (zeroPadded width n) :=
  ⟨isDigit_zeroPadded width n, le_length_zeroPadded width n, Nat.le_refl _,
    digitsValue_zeroPadded width n⟩

/-! ### Parts of an instant -/

theorem looseNumber_zeroPadded (hn : n < 100) (rest : List Char) :
    looseNumber (zeroPadded 2 n ++ rest) = some (n, rest) := by
  have hdigits := isNumber_zeroPadded 2 n
  have hlength : (zeroPadded 2 n).length = 2 := length_zeroPadded (by decide) hn
  refine (Scan.bind_eq (blanks_of_isNumber (List.forall_mem_nil _) hdigits (by decide) _)).trans ?_
  rw [Scan.number_append hdigits.digits (by omega) (Or.inl hlength), hdigits.value]

/-- A year is written as one is read. -/
theorem isLooseYear_yearChars (year : Int) : IsLooseYear year (yearChars year) := by
  have hdigits := isNumber_zeroPadded 4 year.natAbs
  have hlong : IsNumber 1 (zeroPadded 4 year.natAbs).length year.natAbs
      (zeroPadded 4 year.natAbs) := { hdigits with least := by have := hdigits.least; omega }
  unfold yearChars
  split
  · next hyear =>
    have hlength := @length_zeroPadded year.natAbs 4 (by decide) (by omega)
    have hplain := IsLooseYear.plain (List.forall_mem_nil _) (hlength ▸ hlong)
    rwa [Int.natAbs_of_nonneg hyear.1] at hplain
  · split
    · next hneg =>
      have hminus := IsLooseYear.minus (List.forall_mem_nil _) hlong
      rwa [Int.ofNat_natAbs_of_nonpos (Int.le_of_lt hneg), Int.neg_neg] at hminus
    · next hneg =>
      have hplus := IsLooseYear.plus (List.forall_mem_nil _) hlong
      rwa [Int.natAbs_of_nonneg (Int.not_lt.mp hneg)] at hplus

/-- A fraction of so many digits counts parts of a second. -/
theorem fraction_zeroPadded {parts : Nat} (hwidth : 0 < width) (hle : width ≤ 9)
    (hn : n < 10 ^ width) (hparts : n * 10 ^ (9 - width) = parts) (rest : List Char) :
    fraction ('.' :: (zeroPadded width n ++ 'Z' :: rest)) = some (parts, 'Z' :: rest) := by
  have hlength := length_zeroPadded hwidth hn
  have hvalue : nanoseconds (zeroPadded width n) = parts := by
    have hdigits := digitsValue_zeroPadded width n
    rw [digitsValue] at hdigits
    simp only [nanoseconds]
    rw [List.take_of_length_le (by omega), hlength, hdigits, Nat.pow_eq, hparts]
  have hne : zeroPadded width n ≠ [] := List.length_pos_iff.mp (by omega)
  exact reads_fraction.complete ⟨_, Or.inr ⟨rfl, hne, isDigit_zeroPadded width n⟩, hvalue⟩ (by simp)

theorem fraction_fractionChars (hn : n < 1000000000) (rest : List Char) :
    fraction (fractionChars n ++ 'Z' :: rest) = some (n, 'Z' :: rest) := by
  unfold fractionChars
  split
  · next hzero => exact hzero ▸ rfl
  · split
    · exact fraction_zeroPadded (by decide) (by decide) (by omega) (by omega) rest
    · split
      · exact fraction_zeroPadded (by decide) (by decide) (by omega) (by omega) rest
      · exact fraction_zeroPadded (by decide) (by decide) (by omega) (by omega) rest

/-! ### Instants -/

/-- There is such a day, in a year that instants can lie in, and such a second in it.  A leap second
is the last one of its minute. -/
structure IsValid (t : Instant) : Prop where
  date : t.date.isValid
  year : hasYear t.date
  second : t.second < daySeconds
  leap : t.leap → t.second % 60 = 59
  nanosecond : t.nanosecond < 1000000000

variable {t : Instant}

/-- The reading of a clock that shows UTC. -/
theorem ofFields?_of_isValid (h : t.IsValid) :
    ofFields? t.date.year t.date.month t.date.day (t.second / 3600) (t.second / 60 % 60)
      (t.second % 60 + if t.leap then 1 else 0) t.nanosecond = some t := by
  obtain ⟨⟨year, month, day⟩, second, leap, nanosecond⟩ := t
  obtain ⟨hdate, hyear, hsecond, hleap, -⟩ := h
  dsimp only at *
  rw [daySeconds] at hsecond
  have hhour : second / 3600 < 24 := by omega
  have hminute : second / 60 % 60 < 60 := by omega
  have hshown : second % 60 + (if leap then 1 else 0) ≤ 60 := by split <;> omega
  rw [ofFields?, hdate, hyear, decide_eq_true hhour, decide_eq_true hminute, decide_eq_true hshown]
  -- in a leap second the clock shows 60
  cases leap with
  | true =>
    have hlast := hleap rfl
    simp [hlast]
    omega
  | false =>
    simp
    omega

theorem ofLocal?_zero (h : t.IsValid) : ofLocal? t 0 = some t := by
  have hsecond : (t.second : Int) < daySeconds := by exact_mod_cast h.second
  have hnegative : ¬ (t.second : Int) < 0 := by omega
  simp only [ofLocal?, Int.sub_zero, hnegative, Int.not_le.mpr hsecond, if_false,
    Int.toNat_natCast, h.year, if_true]

/-- **A valid instant is read back from its text.** -/
theorem ofStored?_text (h : t.IsValid) : ofStored? t.text = some t := by
  have htext : t.text.toList = yearChars t.date.year ++ '-' :: (zeroPadded 2 t.date.month
      ++ '-' :: (zeroPadded 2 t.date.day ++ 'T' :: (zeroPadded 2 (t.second / 3600)
      ++ ':' :: (zeroPadded 2 (t.second / 60 % 60)
      ++ ':' :: (zeroPadded 2 (t.second % 60 + if t.leap then 1 else 0)
      ++ (fractionChars t.nanosecond ++ ['Z'])))))) := by
    simp [text, textIn]
  obtain ⟨-, hmonth, -, hlength⟩ := Date.isValid_iff.mp h.date
  have hday := Nat.le_trans hlength (Date.monthLength_le _ _)
  have hsecond := h.second
  rw [daySeconds] at hsecond
  have hoffset : Scan.orElse utc (Scan.orElse zulu (offset looseSeparator)) ['Z'] = some (0, []) :=
    rfl
  have hscan : storedTimestamp t.text.toList = some (some t, []) := by
    rw [htext, storedTimestamp]
    refine (Scan.bind_eq (reads_looseYear.complete (isLooseYear_yearChars _) (by simp))).trans ?_
    refine (Scan.blanks_bind_mark (by decide) _).trans ?_
    refine (Scan.bind_eq (looseNumber_zeroPadded (by omega) _)).trans ?_
    refine (Scan.blanks_bind_mark (by decide) _).trans ?_
    refine (Scan.bind_eq (looseNumber_zeroPadded (by omega) _)).trans ?_
    refine (Scan.bind_eq (Scan.one_cons (by decide) _)).trans ?_
    refine (Scan.bind_eq (looseNumber_zeroPadded (by omega) _)).trans ?_
    refine (Scan.blanks_bind_mark (by decide) _).trans ?_
    refine (Scan.bind_eq (looseNumber_zeroPadded (by omega) _)).trans ?_
    refine (Scan.blanks_bind_mark (by decide) _).trans ?_
    refine (Scan.bind_eq (looseNumber_zeroPadded (by split <;> omega) _)).trans ?_
    refine (Scan.bind_eq (fraction_fractionChars h.nanosecond _)).trans ?_
    refine (Scan.bind_eq (Scan.blanks_cons (by decide) _)).trans ?_
    refine (Scan.bind_eq hoffset).trans ?_
    refine (Scan.bind_eq (Scan.blanks_of_head (by simp))).trans ?_
    show some ((ofFields? _ _ _ _ _ _ _).bind _, _) = _
    rw [ofFields?_of_isValid h, Option.bind_some, ofLocal?_zero h]
  rw [ofStored?, Scan.run?_eq hscan, Option.join_some]

end Instant

end SnapshotDiff
