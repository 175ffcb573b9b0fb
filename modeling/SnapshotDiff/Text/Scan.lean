import SnapshotDiff.Text.Blank

/-!
# Scanning

Small steps that read from the front of a list of characters.  A scan either fails or yields a
value and what it has left unread.

## Main definitions

* `Scan` — the steps, which compose as a monad.
* `Scan.run?` — the value of a scan that reads everything.
-/

namespace SnapshotDiff

/-- A step that reads from the front of a text. -/
abbrev Scan := StateT (List Char) Option

namespace Scan

/-- The value of a scan that leaves nothing unread. -/
def run? {α : Type} (p : Scan α) (s : String) : Option α :=
  match p.run s.toList with
  | some (a, []) => some a
  | _ => none

/-- One character that is accepted. -/
def one (accepts : Char → Bool) : Scan Unit := fun cs =>
  match cs with
  | c :: cs => if accepts c then some ((), cs) else none
  | [] => none

/-- The character `c`. -/
def mark (c : Char) : Scan Unit := one (· = c)

/-- White space, if there is any. -/
def blanks : Scan Unit := modify Text.dropBlanks

/-- As many decimal digits as there are, but at most `most` and at least `least`. -/
def digits (least most : Nat) : Scan (List Char) := fun cs =>
  let ds := (cs.takeWhile Char.isDigit).take most
  if ds.length < least then none else some (ds, cs.drop ds.length)

/-- The number written by between `least` and `most` digits. -/
def number (least most : Nat) : Scan Nat := (Nat.ofDigitChars 10 · 0) <$> digits least most

/-- All digits up to the next other character, at least one. -/
def longNumber : Scan Nat := do number 1 (← get).length

/-- The first scan, or where it fails the second one. -/
def orElse {α : Type} (p q : Scan α) : Scan α := fun cs => (p cs).orElse fun _ => q cs

end Scan

end SnapshotDiff
