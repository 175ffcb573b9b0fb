import SnapshotDiff.Document.Quoted

/-!
# Tokens of a TOML text

Blanks and comments lie between tokens and are dropped; ends of lines are tokens.

## Main definitions

* `Toml.Token` — the smallest pieces of a text that mean something.
* `Toml.Token.ofChars?` — the tokens of a text, if it is made of tokens, blanks and comments.

Only what may occur in a document of texts, arrays and tables is a token.
-/

namespace SnapshotDiff

namespace Toml

/-- A piece of a TOML text. -/
inductive Token
  /-- An opening bracket; `joined` if another one stands immediately before it. -/
  | openArray (joined : Bool)
  /-- A closing bracket; `joined` if another one stands immediately before it. -/
  | closeArray (joined : Bool)
  | openTable
  | closeTable
  | comma
  | equals
  | dot
  | newline
  /-- Letters, digits, hyphens and underscores. -/
  | bare (s : String)
  /-- A quoted text; `long` if it stands between triple quotes. -/
  | quoted (long : Bool) (s : String)
  deriving DecidableEq, Repr

namespace Token

/-- A kind of quotes: double ones, between which a backslash escapes, or single ones. -/
inductive Quote
  | double
  | single
  deriving DecidableEq, Repr

/-- The character of a kind of quotes. -/
def Quote.mark : Quote → Char
  | double => '"'
  | single => '\x27'

/-- What the characters since the last finished token are part of.  Texts are held in
reverse. -/
inductive Mode
  /-- Nothing has begun; the character before is known. -/
  | between (last : Char)
  | comment
  | bare (read : List Char)
  /-- One quote has been read. -/
  | opened (q : Quote)
  /-- Two quotes have been read. -/
  | doubled (q : Quote)
  /-- Three quotes have been read, and nothing else. -/
  | begun (q : Quote)
  | short (q : Quote) (read : List Char)
  /-- A text between triple quotes, with the number of quotes read last. -/
  | long (q : Quote) (quotes : Nat) (read : List Char)
  /-- A backslash between double quotes. -/
  | escape (long : Bool) (read : List Char)
  /-- So many hexadecimal digits are missing from the code point. -/
  | hex (long : Bool) (missing code : Nat) (read : List Char)
  /-- A backslash at the end of a line takes the white space behind it along. -/
  | skip (passedNewline : Bool) (read : List Char)
  deriving DecidableEq, Repr

/-- The characters of keys without quotes. -/
def isBare (c : Char) : Bool := c.isAlphanum || c = '-' || c = '_'

/-- The characters that may stand in comments and, unless they end or escape it, in texts. -/
def isPlain (c : Char) : Bool := c = '\t' || (0x20 ≤ c.toNat && c.toNat ≠ 0x7F)

/-- Tokens read so far in reverse, and the mode. -/
abbrev Progress := Mode × List Token

/-- A token that is one character. -/
def ofMark? (last c : Char) : Option Token :=
  match c with
  | '[' => some (openArray (last = '['))
  | ']' => some (closeArray (last = ']'))
  | '\x7b' => some openTable
  | '\x7d' => some closeTable
  | ',' => some comma
  | '=' => some equals
  | '.' => some dot
  | '\n' => some newline
  | _ => none

/-- Reads a character where nothing has begun. -/
def start (done : List Token) (last c : Char) : Option Progress :=
  if c = ' ' || c = '\t' then some (.between c, done)
  else if c = '#' then some (.comment, done)
  else if c = '"' then some (.opened .double, done)
  else if c = '\x27' then some (.opened .single, done)
  else if isBare c then some (.bare [c], done)
  else (ofMark? last c).map fun t => (.between c, t :: done)

/-- The text of characters in reverse. -/
def textOf (read : List Char) : String := String.ofList read.reverse

/-- The token of a text between triple quotes: the last three of the quotes read last end
it. -/
def longText (q : Quote) (quotes : Nat) (read : List Char) : Token :=
  quoted true (textOf (List.replicate (quotes - 3) q.mark ++ read))

/-- Reads a character between quotes that stand alone. -/
def stepShort (done : List Token) (q : Quote) (read : List Char) (c : Char) : Option Progress :=
  if c = q.mark then some (.between c, quoted false (textOf read) :: done)
  else if q = .double ∧ c = '\\' then some (.escape false read, done)
  else if isPlain c then some (.short q (c :: read), done)
  else none

/-- Reads a character between triple quotes that is no quote. -/
def stepLong (done : List Token) (q : Quote) (read : List Char) (c : Char) : Option Progress :=
  if q = .double ∧ c = '\\' then some (.escape true read, done)
  else if isPlain c || c = '\n' then some (.long q 0 (c :: read), done)
  else none

/-- Goes on between double quotes. -/
def resume (long : Bool) (read : List Char) : Mode :=
  if long then .long .double 0 read else .short .double read

/-- The character that a letter stands for behind a backslash. -/
def unescape? : Char → Option Char
  | '/' => none
  | c => Quoted.unescape? c

/-- Reads the character behind a backslash. -/
def stepEscape (done : List Token) (long : Bool) (read : List Char) (c : Char) :
    Option Progress :=
  if c = 'u' then some (.hex long 4 0 read, done)
  else if c = 'U' then some (.hex long 8 0 read, done)
  else if long && (c = ' ' || c = '\t') then some (.skip false read, done)
  else if long && c = '\n' then some (.skip true read, done)
  else (unescape? c).map fun d => (resume long (d :: read), done)

/-- Reads a hexadecimal digit of a code point. -/
def stepHex (done : List Token) (long : Bool) (missing code : Nat) (read : List Char) (c : Char) :
    Option Progress := do
  let code := code * 16 + (← Quoted.hexValue? c)
  if 1 < missing then some (.hex long (missing - 1) code read, done)
  else if code.isValidChar then some (resume long (Char.ofNat code :: read), done)
  else none

/-- Reads one character. -/
def step : Progress → Char → Option Progress
  | (.between last, done), c => start done last c
  | (.comment, done), c =>
    if c = '\n' then some (.between c, newline :: done)
    else if isPlain c then some (.comment, done)
    else none
  | (.bare read, done), c =>
    if isBare c then some (.bare (c :: read), done)
    else start (bare (textOf read) :: done) ' ' c
  | (.opened q, done), c =>
    if c = q.mark then some (.doubled q, done) else stepShort done q [] c
  | (.doubled q, done), c =>
    if c = q.mark then some (.begun q, done) else start (quoted false "" :: done) ' ' c
  | (.begun q, done), c =>
    if c = '\n' then some (.long q 0 [], done)
    else if c = q.mark then some (.long q 1 [], done)
    else stepLong done q [] c
  | (.short q read, done), c => stepShort done q read c
  | (.long q quotes read, done), c =>
    if c = q.mark then (if quotes = 5 then none else some (.long q (quotes + 1) read, done))
    else if 3 ≤ quotes then start (longText q quotes read :: done) ' ' c
    else stepLong done q (List.replicate quotes q.mark ++ read) c
  | (.escape long read, done), c => stepEscape done long read c
  | (.hex long missing code read, done), c => stepHex done long missing code read c
  | (.skip passedNewline read, done), c =>
    if c = ' ' || c = '\t' then some (.skip passedNewline read, done)
    else if c = '\n' then some (.skip true read, done)
    else if !passedNewline then none
    else if c = '"' then some (.long .double 1 read, done)
    else stepLong done .double read c

/-- The tokens, once the last character has been read. -/
def finish : Progress → Option (List Token)
  | (.between _, done) | (.comment, done) => some done.reverse
  | (.bare read, done) => some (bare (textOf read) :: done).reverse
  | (.doubled _, done) => some (quoted false "" :: done).reverse
  | (.long q quotes read, done) =>
    if 3 ≤ quotes then some (longText q quotes read :: done).reverse else none
  | _ => none

/-- The characters with every line ended by a line feed alone; a carriage return elsewhere is
refused. -/
def unixLines : List Char → Option (List Char)
  | [] => some []
  | '\r' :: '\n' :: cs => (unixLines cs).map ('\n' :: ·)
  | c :: cs => if c = '\r' then none else (unixLines cs).map (c :: ·)

/-- The characters without a byte-order mark at their front. -/
def withoutMark : List Char → List Char
  | '\ufeff' :: cs => cs
  | cs => cs

/-- The tokens of a text. -/
def ofChars? (cs : List Char) : Option (List Token) := do
  let cs ← unixLines (withoutMark cs)
  finish (← cs.foldlM step (.between ' ', []))

end Token

end Toml

end SnapshotDiff
