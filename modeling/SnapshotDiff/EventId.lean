import SnapshotDiff.Document.Quoted
import SnapshotDiff.Text.Listing

/-!
# Event identifiers

Identifiers of 128 bits, written as 32 hexadecimal digits in five groups.

## Main definitions

* `EventId` — the digits.
* `EventId.text` — the written form, in lower case with hyphens between the groups.
* `EventId.ofText?` — the identifier of a text: with hyphens or without, in braces or behind
  `urn:uuid:`.
* `EventId.ofTime` — an identifier that grows with time.
-/

namespace SnapshotDiff

/-- An identifier of 128 bits. -/
structure EventId where
  /-- The hexadecimal digits, the most significant one first. -/
  digits : List (Fin 16)
  length_digits : digits.length = 32
  deriving DecidableEq, Repr

namespace EventId

/-- The digits as characters. -/
def hexChars (ds : List (Fin 16)) : List Char := ds.map fun d => Quoted.hexDigit d.val

/-- The digits in groups of eight, four, four, four and twelve, with hyphens between them. -/
def text (i : EventId) : String :=
  let ds := hexChars i.digits
  Text.joined "-" ([ds.take 8, (ds.drop 8).take 4, (ds.drop 12).take 4, (ds.drop 16).take 4,
    ds.drop 20].map String.ofList)

/-- A hexadecimal digit of either case. -/
def digit? (c : Char) : Option (Fin 16) := do
  let n ← Quoted.hexValue? c
  if h : n < 16 then some ⟨n, h⟩ else none

/-- The identifier with the given digits, of which there must be 32. -/
def ofHex? (cs : List Char) : Option EventId := do
  let ds ← cs.mapM digit?
  if h : ds.length = 32 then some ⟨ds, h⟩ else none

/-- The identifier of five groups of digits with hyphens between them. -/
def ofGroups? (cs : List Char) : Option EventId :=
  let groups := Text.cut '-' cs
  if groups.map List.length = [8, 4, 4, 4, 12] then ofHex? groups.flatten else none

/-- The characters, with Latin capitals in lower case. -/
def lower (cs : List Char) : List Char := cs.map Char.toLower

/-- The identifier of a text in one of the forms in use. -/
def ofText? (s : String) : Option EventId :=
  let cs := s.toList
  if cs.length = 32 then ofHex? cs
  else if cs.length = 38 ∧ cs.head? = some '\x7b' ∧ cs.getLast? = some '\x7d' then
    ofGroups? (cs.drop 1).dropLast
  else if lower (cs.take 9) = "urn:uuid:".toList then ofGroups? (cs.drop 9)
  else ofGroups? cs

/-- The last `count` hexadecimal digits of a number. -/
def lastDigits (n : Nat) : (count : Nat) → List (Fin 16)
  | 0 => []
  | count + 1 => lastDigits (n / 16) count ++ [⟨n % 16, Nat.mod_lt _ (by decide)⟩]

@[simp] theorem length_lastDigits (n count : Nat) : (lastDigits n count).length = count := by
  induction count generalizing n with
  | zero => rfl
  | succ count ih => simp [lastDigits, ih]

/-- The identifier of an event: the milliseconds since 1970, the version 7, and for the rest
random bits, but for the two that tell the variant. -/
def ofTime (milliseconds random : Nat) : EventId where
  digits := lastDigits milliseconds 12 ++ [7] ++ lastDigits random 3
    ++ lastDigits (8 + random / Nat.pow 2 12 % 4) 1 ++ lastDigits (random / Nat.pow 2 14) 15
  length_digits := by simp

/-- The version of the identifier. -/
def version (i : EventId) : Nat := (i.digits.getD 12 0).val

end EventId

end SnapshotDiff
