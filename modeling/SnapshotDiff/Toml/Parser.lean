import SnapshotDiff.Toml
import SnapshotDiff.Toml.Token

/-!
# Reading TOML documents

A machine that reads tokens and carries out the statements of the document as they end.

## Main definitions

* `Toml.State` — what the machine expects next.
* `Toml.ofText?` — the members of the root of a document.
-/

namespace SnapshotDiff

namespace Toml

/-- The root as built so far, and the path of the table that the last header opened. -/
structure Built where
  root : Opened
  place : List String
  deriving Repr

/-- An array or a table between braces that is still open. -/
inductive Frame
  /-- An array with its items in reverse. -/
  | array (items : List Toml)
  /-- A table, where the value of the key comes next. -/
  | table (t : Opened) (path : List String) (key : String)
  deriving Repr

/-- What a key is read for. -/
inductive Use
  | statement
  | header
  | arrayHeader
  /-- A member of a table between braces, inside the value of `target`. -/
  | member (target : List String × String) (frames : List Frame) (t : Opened)
  deriving Repr

/-- What has been read, and with it what may come next. -/
inductive State
  /-- A line begins. -/
  | line
  /-- The line must end. -/
  | ended
  /-- A bracket has opened a header. -/
  | bracket
  /-- A part of a key must come; `path` holds the parts before it. -/
  | key (use : Use) (path : List String)
  /-- A part of a key has come. -/
  | keyed (use : Use) (path : List String) (last : String)
  /-- The second bracket that closes the header of an array of tables must come. -/
  | closing (path : List String) (last : String)
  /-- A value must come; right behind the opening of an array, or behind a comma, its end may
  come too. -/
  | value (target : List String × String) (frames : List Frame)
  /-- A table between braces has been opened. -/
  | brace (target : List String × String) (frames : List Frame)
  /-- A value is complete inside the innermost frame. -/
  | complete (target : List String × String) (v : Toml) (frame : Frame) (frames : List Frame)
  deriving Repr

/-- The text of a token that may be part of a key. -/
def keyPart? : Token → Option String
  | .bare s => some s
  | .quoted false s => some s
  | _ => none

/-- A value has been completed. -/
def close (b : Built) (target : List String × String) (v : Toml) :
    List Frame → Option (Built × State)
  | [] => do
    let root ← change? .implied (set? target.1 target.2 v) b.place b.root
    return ({ b with root := root }, .ended)
  | frame :: frames => some (b, .complete target v frame frames)

/-- Reads a token behind a key. -/
def stepKeyed (b : Built) (path : List String) (last : String) (use : Use) (t : Token) :
    Option (Built × State) :=
  match t, use with
  | .dot, _ => some (b, .key use (path ++ [last]))
  | .equals, .statement => some (b, .value (path, last) [])
  | .equals, .member target frames inner =>
    some (b, .value target (.table inner path last :: frames))
  | .closeArray _, .header => do
    let root ← openTable? path last b.root
    return (⟨root, path ++ [last]⟩, .ended)
  | .closeArray _, .arrayHeader => some (b, .closing path last)
  | _, _ => none

/-- Reads the first token of a value. -/
def stepValue (b : Built) (target : List String × String) (frames : List Frame) (t : Token) :
    Option (Built × State) :=
  match t, frames with
  | .quoted _ s, _ => close b target (.text s) frames
  | .openArray _, _ => some (b, .value target (.array [] :: frames))
  | .openTable, _ => some (b, .brace target frames)
  | .closeArray _, .array vs :: frames => close b target (.array vs.reverse) frames
  | .newline, .array _ :: _ => some (b, .value target frames)
  | _, _ => none

/-- Reads a token behind a value inside an array or a table between braces. -/
def stepComplete (b : Built) (target : List String × String) (v : Toml) (frames : List Frame)
    (t : Token) : Frame → Option (Built × State)
  | .array vs =>
    match t with
    | .newline => some (b, .complete target v (.array vs) frames)
    | .comma => some (b, .value target (.array (v :: vs) :: frames))
    | .closeArray _ => close b target (.array (v :: vs).reverse) frames
    | _ => none
  | .table inner path key => do
    let inner ← set? path key v inner
    match t with
    | .comma => some (b, .key (.member target frames inner) [])
    | .closeTable => close b target (.table .inline inner.2) frames
    | _ => none

/-- Reads one token. -/
def step : Built × State → Token → Option (Built × State)
  | (b, .line), t =>
    match t with
    | .newline => some (b, .line)
    | .openArray _ => some (b, .bracket)
    | _ => (keyPart? t).map fun s => (b, .keyed .statement [] s)
  | (b, .ended), t => if t = .newline then some (b, .line) else none
  | (b, .bracket), t =>
    if t = .openArray true then some (b, .key .arrayHeader [])
    else (keyPart? t).map fun s => (b, .keyed .header [] s)
  | (b, .key use path), t => (keyPart? t).map fun s => (b, .keyed use path s)
  | (b, .keyed use path last), t => stepKeyed b path last use t
  | (b, .closing path last), t =>
    if t = .closeArray true then do
      let root ← openTables? path last b.root
      return (⟨root, path ++ [last]⟩, .ended)
    else none
  | (b, .value target frames), t => stepValue b target frames t
  | (b, .brace target frames), t =>
    if t = .closeTable then close b target (.table .inline []) frames
    else (keyPart? t).map fun s => (b, .keyed (.member target frames (.inline, [])) [] s)
  | (b, .complete target v frame frames), t => stepComplete b target v frames t frame

/-- The members of the root, once the last token has been read. -/
def finish : Built × State → Option Members
  | (b, .line) | (b, .ended) => some b.root.2
  | _ => none

/-- The members of the root of a document. -/
def ofText? (s : String) : Option Members := do
  let tokens ← Token.ofChars? s.toList
  finish (← tokens.foldlM step (⟨(.header, []), []⟩, .line))

end Toml

end SnapshotDiff
