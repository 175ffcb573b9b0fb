import SnapshotDiff.Document
import SnapshotDiff.Document.Token

/-!
# Reading documents

The tokens of a text are put together by a machine that holds the arrays and objects which are
still open.

## Main definitions

* `Document.Frame` — an array or object that is still open.
* `Document.State` — what the machine expects next.
* `Document.ofText?` — the document of a text, if the text is JSON.
-/

namespace SnapshotDiff

namespace Document

/-- An array or object that is still open, with its complete items or members in reverse. -/
inductive Frame
  | array (items : List Document)
  /-- The value of the member `key` is being read. -/
  | object (members : List (List Char × Document)) (key : List Char)
  deriving Repr

/-- What has been read, and with it what may come next.  The innermost open frame comes
first. -/
inductive State
  /-- A value must come. -/
  | value (frames : List Frame)
  /-- An array has been opened: its first item or its end must come. -/
  | firstItem (frames : List Frame)
  /-- An object has been opened: its first key or its end must come. -/
  | firstKey (frames : List Frame)
  /-- A further key must come. -/
  | key (members : List (List Char × Document)) (frames : List Frame)
  /-- A colon must come. -/
  | colon (members : List (List Char × Document)) (key : List Char) (frames : List Frame)
  /-- A value is complete. -/
  | complete (d : Document) (frames : List Frame)
  deriving Repr

/-- Reads the first token of a value. -/
def startValue (frames : List Frame) : Token → Option State
  | .openArray => some (.firstItem frames)
  | .openObject => some (.firstKey frames)
  | .null => some (.complete null frames)
  | .bool b => some (.complete (bool b) frames)
  | .number lexeme => some (.complete (number lexeme) frames)
  | .string lexeme => some (.complete (string lexeme) frames)
  | _ => none

/-- Reads one token. -/
def step : State → Token → Option State
  | .value frames, t => startValue frames t
  | .firstItem frames, .closeArray => some (.complete (array []) frames)
  | .firstItem frames, t => startValue (.array [] :: frames) t
  | .firstKey frames, .closeObject => some (.complete (object []) frames)
  | .firstKey frames, .string lexeme => some (.colon [] lexeme frames)
  | .key members frames, .string lexeme => some (.colon members lexeme frames)
  | .colon members key frames, .colon => some (.value (.object members key :: frames))
  | .complete d (.array items :: frames), .comma => some (.value (.array (d :: items) :: frames))
  | .complete d (.array items :: frames), .closeArray =>
    some (.complete (array (d :: items).reverse) frames)
  | .complete d (.object members key :: frames), .comma =>
    some (.key ((key, d) :: members) frames)
  | .complete d (.object members key :: frames), .closeObject =>
    some (.complete (object ((key, d) :: members).reverse) frames)
  | _, _ => none

/-- The document, if the last token has completed it. -/
def finish : State → Option Document
  | .complete d [] => some d
  | _ => none

/-- The document of a list of tokens. -/
def ofTokens? (ts : List Token) : Option Document := (ts.foldlM step (.value [])).bind finish

/-- The document of a text; nothing but blanks may stand around it. -/
def ofText? (s : String) : Option Document := (Token.ofChars? s.toList).bind ofTokens?

end Document

end SnapshotDiff
