import SnapshotDiff.Binary64.Text
import SnapshotDiff.Document.Parser
import SnapshotDiff.Json

/-!
# JSON values and their texts

## Main definitions

* `Json.document` — a value as a document.
* `Json.text` — a value as a text without blanks; members stand in ascending order of keys.
* `Document.value?` — the value of a document.
* `Json.ofText?` — the value of a text.
-/

namespace SnapshotDiff

namespace Json

/-- Floating-point numbers always show a point or an exponent: those from `10 ^ -5` up to
`10 ^ 16` are written positionally, and of two equally good decimals the even one is written. -/
def numberStyle : NumberStyle where
  tie := .toEven
  positional e := -5 ≤ e && e ≤ 15
  pointed := true

/-- An integer in decimal. -/
def integerChars (n : Int) : List Char :=
  if n < 0 then '-' :: Nat.toDigits 10 n.natAbs else Nat.toDigits 10 n.natAbs

/-- The lexeme of a text. -/
def lexeme (s : String) : List Char := Quoted.encode s.toList

mutual

/-- The value as a document. -/
def document : Json → Document
  | null => .null
  | bool b => .bool b
  | int n => .number (integerChars n)
  | float x => .number (x.text numberStyle)
  | str s => .string (lexeme s)
  | arr vs => .array (itemDocuments vs)
  | obj ms => .object (memberDocuments ms)

/-- The items as documents. -/
def itemDocuments : List Json → List Document
  | [] => []
  | v :: vs => document v :: itemDocuments vs

/-- The members as documents. -/
def memberDocuments : List (String × Json) → List (List Char × Document)
  | [] => []
  | (k, v) :: ms => (lexeme k, document v) :: memberDocuments ms

end

/-- The value as a text without blanks. -/
def text (v : Json) : String := v.document.compact

end Json

/-- The value of a numeral.  Without fraction and exponent it is an integer if it fits 64 bits,
unsigned or, behind a minus sign, signed; minus zero is no integer.  Every other numeral is taken to
be read exactly: its value is the number nearest to the decimal, however many digits that has.  A
reader that rounds the digits first and then their product with the power of ten can end at another
number where there are more digits than a number holds. -/
def Numeral.value? (n : Numeral) : Option Json :=
  let whole := n.significand
  if n.isWhole && !n.negative && whole < Nat.pow 2 64 then some (.int whole)
  else if n.isWhole && n.negative && 0 < whole && whole ≤ Nat.pow 2 63 then
    some (.int (-(whole : Int)))
  else (Binary64.ofDecimal? n.negative whole n.scale).map .float

namespace Document

/-- The text of a string's lexeme. -/
def decoded? (lexeme : List Char) : Option String :=
  (Quoted.decode? lexeme).map String.ofList

/-- The greatest number of arrays and objects that may lie inside each other. -/
def maxDepth : Nat := 127

mutual

/-- The value of a document with at most `room` levels of arrays and objects.  There is none if
a number is too large or if a string has half a surrogate pair; of two members under one key
the later one stands. -/
def valueWithin? (room : Nat) : Document → Option Json
  | null => some .null
  | bool b => some (.bool b)
  | number lexeme => (Numeral.ofChars? lexeme).bind Numeral.value?
  | string lexeme => (decoded? lexeme).map .str
  | array ds => if room = 0 then none else (itemValues? (room - 1) ds).map .arr
  | object ms =>
    if room = 0 then none else (memberValues? (room - 1) ms).map fun vs => .obj (Table.ofList vs)

/-- The values of items. -/
def itemValues? (room : Nat) : List Document → Option (List Json)
  | [] => some []
  | d :: ds => do return (← valueWithin? room d) :: (← itemValues? room ds)

/-- The values of members. -/
def memberValues? (room : Nat) : List (List Char × Document) → Option (List (String × Json))
  | [] => some []
  | (k, d) :: ms => do return (← decoded? k, ← valueWithin? room d) :: (← memberValues? room ms)

end

/-- The value of a document. -/
def value? (d : Document) : Option Json := d.valueWithin? maxDepth

end Document

/-- The value of a text. -/
def Json.ofText? (s : String) : Option Json := (Document.ofText? s).bind Document.value?

end SnapshotDiff
