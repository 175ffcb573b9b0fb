import SnapshotDiff.Instant
import SnapshotDiff.Text.Scan

/-!
# Reading instants

Snapshots write an instant in one of three forms: a timestamp with exact digits, a timestamp
with loose digits and an offset, or a bare date, which is midnight of UTC.  Stored entries use
a form of their own, loose throughout.

## Main definitions

* `Instant.ofText?` — the instant of a text in one of the three forms.
* `Instant.ofStored?` — the instant of a text in the form of stored entries.
-/

namespace SnapshotDiff

namespace Instant

/-- The reading of a clock, if there is such a date and time of day.  A sixtieth second is a
leap second in any minute. -/
def ofFields? (year : Int) (month day hour minute second nanosecond : Nat) : Option Instant :=
  let date : Date := ⟨year, month, day⟩
  if date.isValid && hasYear date && hour < 24 && minute < 60 && second ≤ 60 then
    some ⟨date, (hour * 60 + minute) * 60 + min second 59, second = 60, nanosecond⟩
  else none

/-- The first nine of the digits of a fraction as nanoseconds. -/
def nanoseconds (ds : List Char) : Nat :=
  let kept := ds.take 9
  Nat.ofDigitChars 10 kept 0 * Nat.pow 10 (9 - kept.length)

/-- An optional point with digits behind it. -/
def fraction : Scan Nat := do
  match ← get with
  | '.' :: _ =>
    Scan.mark '.'
    return nanoseconds (← Scan.digits 1 (← get).length)
  | _ => return 0

/-- A sign: plus, hyphen or minus. -/
def sign : Scan Int :=
  Scan.orElse (do Scan.mark '+'; return 1)
    (do Scan.one (fun c => c = '-' || c = '\u2212'); return -1)

/-- A signed offset in seconds: two-digit hours and two-digit minutes with `separator` between
them, less than a day. -/
def offset (separator : Scan Unit) : Scan Int := do
  let s ← sign
  let hours ← Scan.number 2 2
  separator
  let minutes ← Scan.number 2 2
  if hours < 24 ∧ minutes < 60 then return s * ((hours * 60 + minutes) * 60 : Nat) else failure

/-- A `Z`. -/
def zulu : Scan Int := do Scan.one (fun c => c = 'Z' || c = 'z'); return 0

/-- The name of the zone UTC in any case. -/
def utc : Scan Int := do
  Scan.one fun c => c = 'U' || c = 'u'
  Scan.one fun c => c = 'T' || c = 't'
  Scan.one fun c => c = 'C' || c = 'c'
  return 0

/-- Colons and white space. -/
def looseSeparator : Scan Unit :=
  modify fun cs => cs.dropWhile fun c => c = ':' || Text.isBlank c

/-- Between one and two digits, behind white space. -/
def looseNumber : Scan Nat := do Scan.blanks; Scan.number 1 2

/-- A year behind white space: up to four digits, or a sign and any number of digits. -/
def looseYear : Scan Int := do
  Scan.blanks
  match ← get with
  | '-' :: _ => do Scan.mark '-'; return -((← Scan.longNumber) : Int)
  | '+' :: _ => do Scan.mark '+'; return (← Scan.longNumber)
  | _ => return (← Scan.number 1 4)

/-- `2024-03-01T10:00:00.5+01:00`, with exactly these numbers of digits. -/
def exactTimestamp : Scan (Option Instant) := do
  let year ← Scan.number 4 4
  Scan.mark '-'
  let month ← Scan.number 2 2
  Scan.mark '-'
  let day ← Scan.number 2 2
  Scan.one fun c => c = 'T' || c = 't' || c = ' '
  let hour ← Scan.number 2 2
  Scan.mark ':'
  let minute ← Scan.number 2 2
  Scan.mark ':'
  let second ← Scan.number 2 2
  let nanosecond ← fraction
  let offset ← Scan.orElse zulu (offset (Scan.mark ':'))
  return (ofFields? year month day hour minute second nanosecond).bind (ofLocal? · offset)

/-- `2024-3-1T10:00:00.5+0100`, with white space before the numbers and the offset. -/
def looseTimestamp : Scan (Option Instant) := do
  let year ← looseYear
  Scan.mark '-'
  let month ← looseNumber
  Scan.mark '-'
  let day ← looseNumber
  Scan.mark 'T'
  let hour ← looseNumber
  Scan.mark ':'
  let minute ← looseNumber
  Scan.mark ':'
  let second ← looseNumber
  let nanosecond ← fraction
  Scan.blanks
  let offset ← offset looseSeparator
  return (ofFields? year month day hour minute second nanosecond).bind (ofLocal? · offset)

/-- `2024-3-1`, with white space before the numbers. -/
def bareDate : Scan (Option Instant) := do
  let year ← looseYear
  Scan.mark '-'
  let month ← looseNumber
  Scan.mark '-'
  let day ← looseNumber
  return ofFields? year month day 0 0 0 0

/-- `2024 - 3 - 1 T 10 : 00 : 00.5 UTC`, with white space also before the marks and at the
end. -/
def storedTimestamp : Scan (Option Instant) := do
  let year ← looseYear
  Scan.blanks
  Scan.mark '-'
  let month ← looseNumber
  Scan.blanks
  Scan.mark '-'
  let day ← looseNumber
  Scan.one fun c => c = 'T' || c = 't' || c = ' '
  let hour ← looseNumber
  Scan.blanks
  Scan.mark ':'
  let minute ← looseNumber
  Scan.blanks
  Scan.mark ':'
  let second ← looseNumber
  let nanosecond ← fraction
  Scan.blanks
  let offset ← Scan.orElse utc (Scan.orElse zulu (offset looseSeparator))
  Scan.blanks
  return (ofFields? year month day hour minute second nanosecond).bind (ofLocal? · offset)

/-- The instant of a text in one of the forms that snapshots use. -/
def ofText? (s : String) : Option Instant :=
  ((exactTimestamp.run? s).join.orElse fun _ => (looseTimestamp.run? s).join).orElse fun _ =>
    (bareDate.run? s).join

/-- The instant of a text in the form that stored entries use. -/
def ofStored? (s : String) : Option Instant := (storedTimestamp.run? s).join

end Instant

end SnapshotDiff
