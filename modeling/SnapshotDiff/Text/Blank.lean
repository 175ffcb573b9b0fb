/-!
# Blanks

The characters that count as white space: those with the Unicode property `White_Space`.

## Main definitions

* `isBlank` — the property.
* `isBlankText` — a text without any other character.
* `dropBlanks` — a text from its first other character on.
-/

namespace SnapshotDiff

namespace Text

/-- The code points outside ASCII and Latin-1 that are white space. -/
def wideBlanks : List Nat :=
  [0x1680, 0x2000, 0x2001, 0x2002, 0x2003, 0x2004, 0x2005, 0x2006, 0x2007, 0x2008, 0x2009,
    0x200A, 0x2028, 0x2029, 0x202F, 0x205F, 0x3000]

/-- The character is white space. -/
def isBlank (c : Char) : Bool :=
  let n := c.toNat
  (0x09 ≤ n && n ≤ 0x0D) || n == 0x20 || n == 0x85 || n == 0xA0 || wideBlanks.contains n

/-- Every character of the text is white space. -/
def isBlankText (s : String) : Bool := s.toList.all isBlank

/-- The characters from the first one that is not white space. -/
def dropBlanks (cs : List Char) : List Char := cs.dropWhile isBlank

end Text

end SnapshotDiff
