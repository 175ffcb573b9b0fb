/-!
# JSON documents

A document is a JSON text as it was written: the members of an object stand in their written
order and may repeat a key, and numbers and strings are kept as their lexemes.  What a lexeme
stands for is decided when the document is read as a value.

## Main definitions

* `Document` — the tree of a text.
* `Document.compact` — the text without any blank.
* `Document.pretty` — the text with one member or item on a line.
-/

namespace SnapshotDiff

/-- A JSON text as it was written.  The lexeme of a string is what stands between its
quotes. -/
inductive Document
  | null
  | bool (b : Bool)
  | number (lexeme : List Char)
  | string (lexeme : List Char)
  | array (items : List Document)
  | object (members : List (List Char × Document))
  deriving Repr, Inhabited

namespace Document

/-- A lexeme between quotes. -/
def quoted (lexeme : List Char) : String := "\"" ++ String.ofList lexeme ++ "\""

/-- The text of a truth value. -/
def word (b : Bool) : String := if b then "true" else "false"

/-! ### Compact texts -/

mutual

/-- The text without any blank. -/
def compact : Document → String
  | null => "null"
  | bool b => word b
  | number lexeme => String.ofList lexeme
  | string lexeme => quoted lexeme
  | array [] => "[]"
  | array (d :: ds) => "[" ++ compact d ++ compactItems ds ++ "]"
  | object [] => "\x7b\x7d"
  | object ((k, d) :: ms) => "\x7b" ++ quoted k ++ ":" ++ compact d ++ compactMembers ms ++ "\x7d"

/-- The items, with a comma before each. -/
def compactItems : List Document → String
  | [] => ""
  | d :: ds => "," ++ compact d ++ compactItems ds

/-- The members, with a comma before each. -/
def compactMembers : List (List Char × Document) → String
  | [] => ""
  | (k, d) :: ms => "," ++ quoted k ++ ":" ++ compact d ++ compactMembers ms

end

/-! ### Indented texts -/

/-- A new line with two blanks for every level. -/
def newline (level : Nat) : String := "\n" ++ String.ofList (List.replicate (2 * level) ' ')

mutual

/-- The text at a level of indentation, with one item or member on a line. -/
def prettyAt (level : Nat) : Document → String
  | null => "null"
  | bool b => word b
  | number lexeme => String.ofList lexeme
  | string lexeme => quoted lexeme
  | array [] => "[]"
  | array (d :: ds) =>
    "[" ++ newline (level + 1) ++ prettyAt (level + 1) d ++ prettyItems (level + 1) ds
      ++ newline level ++ "]"
  | object [] => "\x7b\x7d"
  | object ((k, d) :: ms) =>
    "\x7b" ++ newline (level + 1) ++ quoted k ++ ": " ++ prettyAt (level + 1) d
      ++ prettyMembers (level + 1) ms ++ newline level ++ "\x7d"

/-- The items on lines of their own, with a comma before each line. -/
def prettyItems (level : Nat) : List Document → String
  | [] => ""
  | d :: ds => "," ++ newline level ++ prettyAt level d ++ prettyItems level ds

/-- The members on lines of their own, with a comma before each line. -/
def prettyMembers (level : Nat) : List (List Char × Document) → String
  | [] => ""
  | (k, d) :: ms =>
    "," ++ newline level ++ quoted k ++ ": " ++ prettyAt level d ++ prettyMembers level ms

end

/-- The text with one item or member on a line, indented by two blanks. -/
def pretty (d : Document) : String := prettyAt 0 d

end Document

end SnapshotDiff
