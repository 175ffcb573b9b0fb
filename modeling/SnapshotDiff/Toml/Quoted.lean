import SnapshotDiff.Toml.Token

/-!
# Written TOML texts

A text is written in the first of these forms that needs no escape: between double quotes,
between single quotes, between triple double quotes, between triple single quotes.  A text for
which none will do is escaped.

## Main definitions

* `Toml.quotedText` — a text as a value.
* `Toml.quotedKey` — a text as a key.
* `Toml.arrayText` — an array of texts.
-/

namespace SnapshotDiff

namespace Toml

/-- The length of the longest stretch of the mark, `here` of which stand at the front. -/
def longestRun (mark : Char) : (here : Nat) → List Char → Nat
  | here, [] => here
  | here, c :: cs =>
    if c = mark then longestRun mark (here + 1) cs else max here (longestRun mark 0 cs)

/-- The character can be written as an escape only, apart from blanks and ends of lines. -/
def needsCode (c : Char) : Bool :=
  (c.toNat < 0x20 && c ≠ '\t' && c ≠ '\n') || c.toNat = 0x7F

/-- A number below sixteen as an upper-case digit. -/
def upperHex (n : Nat) : Char := (Quoted.hexDigit n).toUpper

/-- One character between double quotes. -/
def escapeChar (long : Bool) (c : Char) : List Char :=
  if c = '\\' then ['\\', '\\']
  else if c = '\x08' then ['\\', 'b']
  else if c = '\t' then ['\\', 't']
  else if c = '\n' then (if long then ['\n'] else ['\\', 'n'])
  else if c = '\x0c' then ['\\', 'f']
  else if c = '\r' then ['\\', 'r']
  else if c.toNat < 0x20 || c.toNat = 0x7F then
    ['\\', 'u', '0', '0', upperHex (c.toNat / 16), upperHex (c.toNat % 16)]
  else [c]

/-- The characters between double quotes; of more than `most` quotes in a row every further
one is escaped, and `run` of them stand at the front. -/
def escaped (long : Bool) (most : Nat) : (run : Nat) → List Char → List Char
  | _, [] => []
  | run, c :: cs =>
    if c = '"' then
      if run < most then '"' :: escaped long most (run + 1) cs
      else '\\' :: '"' :: escaped long most 0 cs
    else escapeChar long c ++ escaped long most 0 cs

/-- Characters between quotes.  Between triple quotes, a text of several lines starts on a line
of its own. -/
def enclosed (quotes : List Char) (ownLine : Bool) (cs : List Char) : String :=
  String.ofList (quotes ++ (if ownLine then ['\n'] else []) ++ cs ++ quotes)

/-- A text between double quotes. -/
def shortText (cs : List Char) : String := enclosed ['"'] false (escaped false 0 0 cs)

/-- A text between triple double quotes. -/
def longText (cs : List Char) : String :=
  enclosed ['"', '"', '"'] (cs.contains '\n') (escaped true 2 0 cs)

/-- A text as a value. -/
def quotedText (s : String) : String :=
  let cs := s.toList
  let codes := cs.any needsCode
  let escape := cs.contains '\\'
  let lines := cs.contains '\n'
  let doubles := longestRun '"' 0 cs
  let singles := longestRun '\x27' 0 cs
  if !codes && !escape && doubles = 0 && !lines then shortText cs
  else if !codes && singles = 0 && !lines then enclosed ['\x27'] false cs
  else if !codes && !escape && doubles ≤ 2 then longText cs
  else if !codes && singles ≤ 2 then enclosed ['\x27', '\x27', '\x27'] lines cs
  else if lines then longText cs
  else shortText cs

/-- A text as a key. -/
def quotedKey (s : String) : String :=
  let cs := s.toList
  let codes := cs.any needsCode
  let lines := cs.contains '\n'
  if !cs.isEmpty && cs.all Token.isBare then s
  else if !codes && !cs.contains '\\' && !cs.contains '"' && !lines then shortText cs
  else if !codes && !cs.contains '\x27' && !lines then enclosed ['\x27'] false cs
  else shortText cs

/-- An array of texts.  Up to one item stands on the line, more stand on lines of their own. -/
def arrayText : List String → String
  | [] => "[]"
  | [s] => "[" ++ quotedText s ++ "]"
  | ss => "[\n" ++ String.join (ss.map fun s => "    " ++ quotedText s ++ ",\n") ++ "]"

end Toml

end SnapshotDiff
