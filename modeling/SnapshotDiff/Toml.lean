/-!
# TOML documents

Texts, arrays and tables: the part of TOML that configurations are made of.

## Main definitions

* `Toml` — the values.
* `Toml.Origin` — how a table came to be, which decides what may be added to it.
* `Toml.set?`, `Toml.openTable?`, `Toml.openTables?` — the statements of a document, as
  operations on the members of its root.
-/

namespace SnapshotDiff

namespace Toml

/-- How a table came to be. -/
inductive Origin
  /-- By a header of its own, or as the root. -/
  | header
  /-- On the way to the table of a header. -/
  | implied
  /-- By a key with dots. -/
  | dotted
  /-- Between braces; nothing can be added to it. -/
  | inline
  deriving DecidableEq, Repr

end Toml

/-- A TOML value. -/
inductive Toml
  | text (s : String)
  | array (items : List Toml)
  | table (origin : Toml.Origin) (members : List (String × Toml))
  /-- An array of tables that was built by headers. -/
  | tables (items : List (List (String × Toml)))
  deriving Repr, Inhabited

namespace Toml

/-- The members of a table in their written order. -/
abbrev Members := List (String × Toml)

/-- The members of a table, if the value is one. -/
def members? : Toml → Option Members
  | table _ ms => some ms
  | _ => none

/-- The items of an array, however it was written. -/
def items? : Toml → Option (List Toml)
  | array vs => some vs
  | tables ts => some (ts.map (table .header))
  | _ => none

/-- Puts a value in place of the one under a key, or at the end. -/
def replace (key : String) (v : Toml) : Members → Members
  | [] => [(key, v)]
  | (k, w) :: ms => if k = key then (key, v) :: ms else (k, w) :: replace key v ms

/-- A table and where it came from. -/
abbrev Opened := Origin × Members

/-- Changes the table that a path leads to from a table.  Tables missing on the way come to be
as `made`; those found there must be open to additions of that sort, and of an array of tables
the last one is meant. -/
def change? (made : Origin) (f : Opened → Option Opened) : List String → Opened → Option Opened
  | [], t => f t
  | k :: ks, (origin, ms) =>
    match ms.lookup k with
    | none => do
      let (o, inner) ← change? made f ks (made, [])
      return (origin, replace k (table o inner) ms)
    | some (table .inline _) => none
    | some (table o inner) => do
      if made = .dotted ∧ o = .header then none
      let (o, inner) ← change? made f ks (o, inner)
      return (origin, replace k (table o inner) ms)
    | some (tables ts) =>
      match ts.getLast? with
      | none => none
      | some inner => do
        let (_, inner) ← change? made f ks (.header, inner)
        return (origin, replace k (tables (ts.dropLast ++ [inner])) ms)
    | some _ => none

/-- Puts a value under a new key of a table.  A table that dotted keys lead to takes members
from dotted keys only, and any other table from keys without dots. -/
def add? (byDots : Bool) (key : String) (v : Toml) : Opened → Option Opened
  | (origin, ms) =>
    if ((origin == .dotted) == byDots) && (ms.lookup key).isNone then
      some (origin, ms ++ [(key, v)])
    else none

/-- Sets the value of a key, which may be dotted, in a table. -/
def set? (path : List String) (key : String) (v : Toml) (t : Opened) : Option Opened :=
  change? .dotted (add? (!path.isEmpty) key v) path t

/-- Opens the table of a header in its parent. -/
def openIn? (key : String) : Opened → Option Opened
  | (origin, ms) =>
    match ms.lookup key with
    | none => some (origin, replace key (table .header []) ms)
    | some (table .implied inner) => some (origin, replace key (table .header inner) ms)
    | some _ => none

/-- Opens one more table of an array of tables in its parent. -/
def extendIn? (key : String) : Opened → Option Opened
  | (origin, ms) =>
    match ms.lookup key with
    | none => some (origin, replace key (tables [[]]) ms)
    | some (tables ts) => some (origin, replace key (tables (ts ++ [[]])) ms)
    | some _ => none

/-- The effect of the header of a table on the root. -/
def openTable? (path : List String) (key : String) (root : Opened) : Option Opened :=
  change? .implied (openIn? key) path root

/-- The effect of the header of an array of tables on the root. -/
def openTables? (path : List String) (key : String) (root : Opened) : Option Opened :=
  change? .implied (extendIn? key) path root

end Toml

end SnapshotDiff
