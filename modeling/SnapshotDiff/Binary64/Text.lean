import SnapshotDiff.Binary64.Shortest

/-!
# Written numbers

The text of a floating-point number: its shortest digits, laid out with a decimal point or
with an exponent.

## Main definitions

* `NumberStyle` — the decisions that a written form makes.
* `Binary64.text` — the number in a style.
-/

namespace SnapshotDiff

/-- The decisions of a written form. -/
structure NumberStyle where
  /-- Which of two equally short and equally near decimals is written. -/
  tie : Tie
  /-- Whether a number whose first digit stands for `10 ^ e` is written without an exponent. -/
  positional : Int → Bool
  /-- Whether a whole number is written with a fraction digit. -/
  pointed : Bool

namespace Binary64

/-- The digits of a number without the zeros at its end. -/
def significantDigits (n : Nat) : List Char :=
  ((Nat.toDigits 10 n).reverse.dropWhile (· = '0')).reverse

/-- `n` zeros. -/
def zeros (n : Nat) : List Char := List.replicate n '0'

/-- The digits with the decimal point that gives the first of them the place `10 ^ e`. -/
def positional (pointed : Bool) (ds : List Char) (e : Int) : List Char :=
  if e < 0 then '0' :: '.' :: zeros (e.natAbs - 1) ++ ds
  else
    let whole := e.toNat + 1
    if ds.length ≤ whole then
      ds ++ zeros (whole - ds.length) ++ if pointed then ['.', '0'] else []
    else ds.take whole ++ '.' :: ds.drop whole

/-- The digits with a point behind the first, and the exponent with its sign. -/
def scientific (ds : List Char) (e : Int) : List Char :=
  ds.take 1 ++ (if ds.length ≤ 1 then [] else '.' :: ds.drop 1)
    ++ 'e' :: (if e < 0 then '-' else '+') :: Nat.toDigits 10 e.natAbs

/-- A decimal in a style. -/
def layOut (style : NumberStyle) (d : Decimal) : List Char :=
  let ds := significantDigits d.significand
  let e : Int := d.exponent + (Nat.toDigits 10 d.significand).length - 1
  if style.positional e then positional style.pointed ds e else scientific ds e

/-- The number in a style, with its sign even if it is zero. -/
def text (style : NumberStyle) (x : Binary64) : List Char :=
  let digits :=
    if x.rank.val = 0 then positional style.pointed ['0'] 0 else layOut style (shortest style.tie x)
  if x.negative then '-' :: digits else digits

end Binary64

end SnapshotDiff
