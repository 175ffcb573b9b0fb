import SnapshotDiff.Document.Numeral
import SnapshotDiff.Document.Quoted

/-!
# Tokens of a JSON text

## Main definitions

* `Token` — the smallest pieces of a text that mean something.
* `Token.ofChars?` — the tokens of a text, if it is made of tokens and blanks only.
-/

namespace SnapshotDiff

/-- A piece of a JSON text. -/
inductive Token
  | openArray
  | closeArray
  | openObject
  | closeObject
  | comma
  | colon
  | null
  | bool (b : Bool)
  | number (lexeme : List Char)
  | string (lexeme : List Char)
  deriving DecidableEq, Repr

namespace Token

/-- What the characters since the last finished token are part of; those that belong to a
lexeme are held in reverse. -/
inductive Mode
  /-- Nothing has begun. -/
  | between
  /-- A word or a number. -/
  | bare (read : List Char)
  /-- A string. -/
  | text (read : List Char)
  /-- A string, behind a backslash. -/
  | escape (read : List Char)
  /-- A string, with so many hexadecimal digits to come. -/
  | hex (missing : Nat) (read : List Char)
  deriving DecidableEq, Repr

/-- The characters that JSON allows between tokens. -/
def isSpace (c : Char) : Bool := c = ' ' || c = '\n' || c = '\t' || c = '\r'

/-- The characters that words and numbers are made of. -/
def isBare (c : Char) : Bool := c.isAlphanum || c = '-' || c = '+' || c = '.'

/-- The token that is a bracket or a mark. -/
def ofMark? : Char → Option Token
  | '[' => some openArray
  | ']' => some closeArray
  | '\x7b' => some openObject
  | '\x7d' => some closeObject
  | ',' => some comma
  | ':' => some colon
  | _ => none

/-- The token that is a word or a number. -/
def ofBare? (cs : List Char) : Option Token :=
  if cs = ['n', 'u', 'l', 'l'] then some null
  else if cs = ['t', 'r', 'u', 'e'] then some (bool true)
  else if cs = ['f', 'a', 'l', 's', 'e'] then some (bool false)
  else if (Numeral.ofChars? cs).isSome then some (number cs)
  else none

/-- Reads a character where nothing has begun; `done` holds the tokens before it in reverse. -/
def start (done : List Token) (c : Char) : Option (Mode × List Token) :=
  if isSpace c then some (.between, done)
  else if c = '"' then some (.text [], done)
  else if isBare c then some (.bare [c], done)
  else (ofMark? c).map fun t => (.between, t :: done)

/-- Reads one character. -/
def step : Mode × List Token → Char → Option (Mode × List Token)
  | (.between, done), c => start done c
  | (.bare read, done), c =>
    if isBare c then some (.bare (c :: read), done)
    else (ofBare? read.reverse).bind fun t => start (t :: done) c
  | (.text read, done), c =>
    if c = '"' then some (.between, string read.reverse :: done)
    else if c = '\\' then some (.escape (c :: read), done)
    else if c.toNat < 0x20 then none
    else some (.text (c :: read), done)
  | (.escape read, done), c =>
    if c = 'u' then some (.hex 4 (c :: read), done)
    else (Quoted.unescape? c).map fun _ => (.text (c :: read), done)
  | (.hex missing read, done), c =>
    (Quoted.hexValue? c).map fun _ =>
      (if missing ≤ 1 then .text (c :: read) else .hex (missing - 1) (c :: read), done)

/-- The tokens, once the last character has been read. -/
def finish : Mode × List Token → Option (List Token)
  | (.between, done) => some done.reverse
  | (.bare read, done) => (ofBare? read.reverse).map fun t => (t :: done).reverse
  | _ => none

/-- The tokens of a text. -/
def ofChars? (cs : List Char) : Option (List Token) := (cs.foldlM step (.between, [])).bind finish

end Token

end SnapshotDiff
