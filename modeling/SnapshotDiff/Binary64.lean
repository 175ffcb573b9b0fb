/-!
# Finite binary floating-point numbers

The finite numbers of the 64-bit binary interchange format.  All arithmetic on them is exact
arithmetic on natural numbers: every finite magnitude is a whole number of units of
`2 ^ -1074`, and the magnitudes in ascending order are counted by their *rank*, which is also
the bit pattern without the sign.

## Main definitions

* `Binary64` — a sign and a rank.
* `Binary64.magnitude` — the absolute value in units of `2 ^ -1074`.
* `Binary64.ofRatio?` — the number nearest to a quotient of natural numbers.
* `Binary64.ofDecimal?` — the number nearest to a decimal `m * 10 ^ e`.
* `Binary64.sameValue` — equality of values, which identifies the two zeros.
-/

namespace SnapshotDiff

/-- A finite number: its sign, and the rank of its magnitude among all finite magnitudes. -/
structure Binary64 where
  /-- The number carries a minus sign; so may zero. -/
  negative : Bool
  /-- The number of finite magnitudes below this one. -/
  rank : Fin (2047 * Nat.pow 2 52)
  deriving DecidableEq, Repr

namespace Binary64

/-- The units of `2 ^ -1074` in one. -/
def unitsInOne : Nat := Nat.pow 2 1074

/-- Zero with a sign. -/
def zero (negative : Bool) : Binary64 := ⟨negative, 0, by decide⟩

/-- The absolute value in units of `2 ^ -1074`.  The first `2 ^ 53` magnitudes are one unit
apart, and from there on the distance doubles every `2 ^ 52` magnitudes. -/
def magnitude (x : Binary64) : Nat :=
  if x.rank.val < Nat.pow 2 52 then x.rank.val
  else (Nat.pow 2 52 + x.rank.val % Nat.pow 2 52) * Nat.pow 2 (x.rank.val / Nat.pow 2 52 - 1)

/-- The whole number nearest to `a / b`; a half goes to the even neighbour. -/
def roundHalfEven (a b : Nat) : Nat :=
  let q := a / b
  let r := a % b
  if 2 * r < b then q
  else if b < 2 * r then q + 1
  else if q % 2 = 0 then q else q + 1

/-- The rank of the magnitude nearest to `a / b`, as if ranks went on without end. -/
def nearestRank (a b : Nat) : Nat :=
  let scaled := a * unitsInOne
  let doublings := (scaled / b).log2 - 52
  doublings * Nat.pow 2 52 + roundHalfEven scaled (b * Nat.pow 2 doublings)

/-- The number nearest to `a / b` with the given sign, unless it is too large. -/
def ofRatio? (negative : Bool) (a b : Nat) : Option Binary64 :=
  if h : nearestRank a b < 2047 * Nat.pow 2 52 then some ⟨negative, nearestRank a b, h⟩ else none

/-- The number nearest to an integer, unless it is too large. -/
def ofInt? (n : Int) : Option Binary64 := ofRatio? (n < 0) n.natAbs 1

/-- The number nearest to `m * 10 ^ e` with the given sign, unless it is too large.  A decimal
beyond `10 ^ 310` is too large and one below `10 ^ -330` is zero, whatever its digits. -/
def ofDecimal? (negative : Bool) (m : Nat) (e : Int) : Option Binary64 :=
  let top : Int := e + (Nat.toDigits 10 m).length
  if m = 0 ∨ top < -330 then some (zero negative)
  else if 310 < top then none
  else if e < 0 then ofRatio? negative m (Nat.pow 10 e.natAbs)
  else ofRatio? negative (m * Nat.pow 10 e.natAbs) 1

/-- The two numbers have one value: they are the same number, or both are zero. -/
def sameValue (x y : Binary64) : Bool := x == y || (x.rank.val == 0 && y.rank.val == 0)

/-- A zero is equal to the zero of the other sign. -/
theorem sameValue_zero (s t : Bool) : sameValue (zero s) (zero t) := by
  cases s <;> cases t <;> decide

end Binary64

end SnapshotDiff
