import SnapshotDiff.Binary64

/-!
# The fewest digits that read back

The text of a floating-point number has the fewest digits among the decimals that are read as
that number, and of those with the fewest the nearest one.

## Main definitions

* `Tie` — which of two equally near decimals is chosen.
* `Decimal` — a decimal `significand * 10 ^ exponent`.
* `Binary64.withDigits?` — the nearest decimal of a given number of digits that reads back.
* `Binary64.shortest` — the decimal with the fewest digits that reads back.
-/

namespace SnapshotDiff

/-- The choice between two decimals at one distance. -/
inductive Tie
  /-- The one whose last digit is even. -/
  | toEven
  /-- The one further from zero. -/
  | up
  deriving DecidableEq, Repr

/-- The number `significand * 10 ^ exponent`. -/
structure Decimal where
  significand : Nat
  exponent : Int
  deriving DecidableEq, Repr

namespace Binary64

/-- The magnitude as a whole number of units of `10 ^ -1074`. -/
def tenths (x : Binary64) : Nat := x.magnitude * Nat.pow 5 1074

/-- The decimal is read as the number. -/
def readsAs (x : Binary64) (d : Decimal) : Bool :=
  ofDecimal? x.negative d.significand d.exponent == some x

/-- Of the two decimals `low` and `low + 1` on one grid, the nearer one: `rest` of `unit` is
what the number has beyond `low`. -/
def nearer (tie : Tie) (low rest unit : Nat) : Nat :=
  if 2 * rest < unit then low
  else if unit < 2 * rest then low + 1
  else match tie with
    | .toEven => if low % 2 = 0 then low else low + 1
    | .up => low + 1

/-- One of `low` and `low + 1` that is accepted; if both are, the nearer one. -/
def pick? (tie : Tie) (accepts : Nat → Bool) (low rest unit : Nat) : Option Nat :=
  match accepts low, accepts (low + 1) with
  | true, true => some (nearer tie low rest unit)
  | true, false => some low
  | false, true => some (low + 1)
  | false, false => none

/-- The nearest decimal that is read as the number and has nothing but zeros in the last
`dropped` of the places down to `10 ^ -1074`, if there is one.  Only the two such decimals next
to the number can be. -/
def onGrid? (tie : Tie) (x : Binary64) (dropped : Nat) : Option Decimal :=
  (pick? tie (fun m => x.readsAs ⟨m, dropped - 1074⟩) (x.tenths / Nat.pow 10 dropped)
    (x.tenths % Nat.pow 10 dropped) (Nat.pow 10 dropped)).map fun m => ⟨m, dropped - 1074⟩

/-- The nearest decimal with `n` digits that is read as the number, if there is one. -/
def withDigits? (tie : Tie) (x : Binary64) (n : Nat) : Option Decimal :=
  onGrid? tie x ((Nat.toDigits 10 x.tenths).length - n)

/-- The first hit among `n`, `n + 1`, … digits, trying `tries` lengths; beyond them the exact
value. -/
def shortestFrom (tie : Tie) (x : Binary64) (n : Nat) : Nat → Decimal
  | 0 => ⟨x.tenths, -1074⟩
  | tries + 1 => (withDigits? tie x n).getD (shortestFrom tie x (n + 1) tries)

/-- The decimal with the fewest digits that is read as the number.  Seventeen digits are
enough for every number. -/
def shortest (tie : Tie) (x : Binary64) : Decimal := shortestFrom tie x 1 17

theorem nearer_eq_or (tie : Tie) (low rest unit : Nat) :
    nearer tie low rest unit = low ∨ nearer tie low rest unit = low + 1 := by
  simp only [nearer]
  repeat' split
  all_goals simp

/-- What is picked is accepted. -/
theorem accepts_of_pick? {tie : Tie} {accepts : Nat → Bool} {low rest unit m : Nat}
    (h : pick? tie accepts low rest unit = some m) : accepts m := by
  simp only [pick?] at h
  split at h
  · next hl hh =>
    obtain rfl := Option.some.inj h
    rcases nearer_eq_or tie low rest unit with he | he <;> rw [he] <;> assumption
  · next hl _ => exact Option.some.inj h ▸ hl
  · next _ hh => exact Option.some.inj h ▸ hh
  · simp at h

/-- A decimal of few digits that is chosen for a number is read as that number. -/
theorem readsAs_of_withDigits? {tie : Tie} {x : Binary64} {n : Nat} {d : Decimal}
    (h : withDigits? tie x n = some d) : x.readsAs d := by
  obtain ⟨m, hm, rfl⟩ := Option.map_eq_some_iff.mp h
  exact accepts_of_pick? hm

end Binary64

end SnapshotDiff
