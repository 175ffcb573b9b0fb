/-!
# Numerals

The written form of a JSON number: an optional minus sign, a whole part without a leading zero,
an optional fraction and an optional exponent.

## Main definitions

* `Numeral` — the parts of a written number.
* `Numeral.ofChars?` — the parts of a lexeme.
-/

namespace SnapshotDiff

/-- The parts of a written number. -/
structure Numeral where
  /-- There is a minus sign. -/
  negative : Bool
  /-- The digits before the point. -/
  whole : List Char
  /-- The digits behind the point, if there is one. -/
  fraction : Option (List Char)
  /-- The exponent, if there is one. -/
  exponent : Option Int
  deriving DecidableEq, Repr

namespace Numeral

/-- The number written by decimal digits. -/
def digitsValue (ds : List Char) : Nat := Nat.ofDigitChars 10 ds 0

/-- The part behind the point, and what follows it. -/
def fraction? : List Char → Option (Option (List Char) × List Char)
  | '.' :: cs =>
    if (cs.takeWhile Char.isDigit).isEmpty then none
    else some (some (cs.takeWhile Char.isDigit), cs.dropWhile Char.isDigit)
  | cs => some (none, cs)

/-- The digits of an exponent, which must end the lexeme. -/
def exponentDigits? (negative : Bool) (ds : List Char) : Option (Option Int) :=
  if ds.isEmpty || !ds.all Char.isDigit then none
  else some (some (if negative then -(digitsValue ds : Int) else digitsValue ds))

/-- The exponent, which must end the lexeme. -/
def exponent? : List Char → Option (Option Int)
  | [] => some none
  | e :: cs =>
    if e ≠ 'e' ∧ e ≠ 'E' then none
    else match cs with
      | '-' :: ds => exponentDigits? true ds
      | '+' :: ds => exponentDigits? false ds
      | ds => exponentDigits? false ds

/-- The parts of an unsigned lexeme. -/
def ofUnsigned? (negative : Bool) (cs : List Char) : Option Numeral := do
  let whole := cs.takeWhile Char.isDigit
  if whole.isEmpty || (whole.head? == some '0' && whole.length != 1) then none
  let (fraction, rest) ← fraction? (cs.dropWhile Char.isDigit)
  let exponent ← exponent? rest
  return ⟨negative, whole, fraction, exponent⟩

/-- The parts of a lexeme, if it is a number. -/
def ofChars? : List Char → Option Numeral
  | '-' :: cs => ofUnsigned? true cs
  | cs => ofUnsigned? false cs

/-- The numeral has neither a fraction nor an exponent. -/
def isWhole (n : Numeral) : Bool := n.fraction.isNone && n.exponent.isNone

/-- The digits on both sides of the point as one number. -/
def significand (n : Numeral) : Nat := digitsValue (n.whole ++ n.fraction.getD [])

/-- The power of ten that the significand is to be multiplied with. -/
def scale (n : Numeral) : Int := n.exponent.getD 0 - (n.fraction.getD []).length

end Numeral

end SnapshotDiff
