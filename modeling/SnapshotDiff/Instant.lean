import SnapshotDiff.Date

/-!
# Instants

Points in time on the clock of UTC.  A leap second is the second after the one that it is
attached to, and differs from the second that follows it.

## Main definitions

* `Instant` — date, second of the day and fraction.
* `Instant.ofLocal?` — the instant of a reading of a clock at an offset from UTC.
* `Instant.ofUnix` — the instant of a count of nanoseconds.
* `Instant.text` — the written form, which tells any two instants apart.
-/

namespace SnapshotDiff

/-- A point in time on the clock of UTC. -/
structure Instant where
  date : Date
  /-- The second of the day; of a leap second, the second before it. -/
  second : Nat
  /-- The point lies in a leap second. -/
  leap : Bool
  nanosecond : Nat
  deriving DecidableEq, Repr

namespace Instant

/-- The seconds of a day. -/
def daySeconds : Nat := 86400

/-- The years that an instant can lie in. -/
def hasYear (d : Date) : Bool := -262143 ≤ d.year && d.year ≤ 262142

/-- The instant that a clock shows which is `offset` seconds ahead of UTC.  A clock is less
than a day ahead or behind. -/
def ofLocal? (shown : Instant) (offset : Int) : Option Instant :=
  let second : Int := shown.second - offset
  let utc : Instant :=
    if second < 0 then
      { shown with date := shown.date.previous, second := (second + daySeconds).toNat }
    else if daySeconds ≤ second then
      { shown with date := shown.date.next, second := (second - daySeconds).toNat }
    else { shown with second := second.toNat }
  if hasYear utc.date then some utc else none

/-- The instant so many nanoseconds after the beginning of 1970. -/
def ofUnix (nanoseconds : Nat) : Instant :=
  let seconds := nanoseconds / 1000000000
  { date := (Date.mk 1970 1 1).later (seconds / daySeconds)
    second := seconds % daySeconds
    leap := false
    nanosecond := nanoseconds % 1000000000 }

/-! ### Written form -/

/-- A number with zeros in front up to a width. -/
def zeroPadded (width n : Nat) : List Char :=
  let ds := Nat.toDigits 10 n
  List.replicate (width - ds.length) '0' ++ ds

/-- The year with four digits; years outside 0 to 9999 carry a sign. -/
def yearChars (year : Int) : List Char :=
  if 0 ≤ year ∧ year ≤ 9999 then zeroPadded 4 year.natAbs
  else (if year < 0 then '-' else '+') :: zeroPadded 4 year.natAbs

/-- The fraction with the fewest of zero, three, six and nine digits that is exact. -/
def fractionChars (nanosecond : Nat) : List Char :=
  if nanosecond = 0 then []
  else if nanosecond % 1000000 = 0 then '.' :: zeroPadded 3 (nanosecond / 1000000)
  else if nanosecond % 1000 = 0 then '.' :: zeroPadded 6 (nanosecond / 1000)
  else '.' :: zeroPadded 9 nanosecond

/-- The instant, with a text for the time zone at its end. -/
def textIn (zone : String) (t : Instant) : String :=
  let seconds := t.second % 60 + if t.leap then 1 else 0
  String.ofList (yearChars t.date.year ++ '-' :: zeroPadded 2 t.date.month
    ++ '-' :: zeroPadded 2 t.date.day ++ 'T' :: zeroPadded 2 (t.second / 3600)
    ++ ':' :: zeroPadded 2 (t.second / 60 % 60) ++ ':' :: zeroPadded 2 seconds
    ++ fractionChars t.nanosecond) ++ zone

/-- The instant in UTC. -/
def text (t : Instant) : String := textIn "Z" t

end Instant

end SnapshotDiff
