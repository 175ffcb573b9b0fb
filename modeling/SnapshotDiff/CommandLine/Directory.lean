import SnapshotDiff.Text.Listing

/-!
# Directories

Files in the working directory of a request, held in memory, and the ways in which a path
names them.

## Main definitions

* `CommandLine.Directory` — the files.
* `CommandLine.Directory.place?` — the place that a path leads to.
* `CommandLine.Directory.read?` — the contents of the file at a path.

## Main results

* `CommandLine.Directory.place?_name` — a plain name leads to the place of that name.
* `CommandLine.Directory.place?_here` — `./` in front of a path changes nothing.
-/

namespace SnapshotDiff

namespace CommandLine

/-- A directory with files in it and below it.  A place is given by the names that lead to it
from the directory. -/
structure Directory where
  /-- The places of the files with their contents. -/
  files : List (List String × String)
  deriving Repr

namespace Directory

/-- The place is a folder: the directory itself, or one on the way to a file. -/
def isFolder (d : Directory) (place : List String) : Bool :=
  place.isEmpty
    || d.files.any fun f => place.isPrefixOf f.1 && decide (place.length < f.1.length)

/-- One step of a path, which must start from a folder.  What lies above the directory is not
known, so no step leads there. -/
def step? (d : Directory) (place : List String) (name : String) : Option (List String) :=
  if !d.isFolder place then none
  else if name = "" ∨ name = "." then some place
  else if name = ".." then (if place.isEmpty then none else some place.dropLast)
  else some (place ++ [name])

/-- The place that the steps lead to. -/
def walk? (d : Directory) (place : List String) (names : List String) : Option (List String) :=
  names.foldlM d.step? place

/-- The path starts at the root of the system and not in the directory. -/
def isAbsolute (path : String) : Bool := path.toList.head? = some '/'

/-- The place that a path leads to from the directory. -/
def place? (d : Directory) (path : String) : Option (List String) :=
  if isAbsolute path then none else d.walk? [] (Text.pieces '/' path)

/-- The device that is an empty file on every system. -/
def nullDevice : String := "/dev/null"

/-- The contents of the file at a path.  A folder has none. -/
def read? (d : Directory) (path : String) : Option String :=
  if path = nullDevice then some "" else (d.place? path).bind fun place => d.files.lookup place

/-- The names of a path that lead from one place to another. -/
def names (path : String) : List String :=
  (Text.pieces '/' path).filter fun name => name ≠ "" ∧ name ≠ "."

/-- The directory of files with the paths at which they were put; of two files in one place the
later one stands. -/
def ofFiles (files : List (String × String)) : Directory where
  files := (files.map fun f => (names f.1, f.2)).reverse

@[simp] theorem isFolder_nil (d : Directory) : d.isFolder [] = true := rfl

@[simp] theorem walk?_nil (d : Directory) (place : List String) : d.walk? place [] = some place :=
  rfl

@[simp] theorem walk?_cons (d : Directory) (place : List String) (name : String)
    (names : List String) :
    d.walk? place (name :: names) = (d.step? place name).bind (d.walk? · names) := rfl

/-- A plain name leads to the place of that name. -/
theorem place?_name (d : Directory) {name : String} (hslash : '/' ∉ name.toList)
    (hempty : name ≠ "") (hhere : name ≠ ".") (habove : name ≠ "..") :
    d.place? name = some [name] := by
  have habs : isAbsolute name = false := by
    simpa [isAbsolute] using fun h => hslash (List.mem_of_head? h)
  simp [place?, habs, Text.pieces_of_not_mem hslash, step?, hempty, hhere, habove]

/-- The sign of the directory itself in front of a path changes nothing. -/
theorem place?_here (d : Directory) {path : String} (h : isAbsolute path = false) :
    d.place? ("./" ++ path) = d.place? path := by
  have habs : isAbsolute ("./" ++ path) = false := by simp [isAbsolute]
  have hpieces : Text.pieces '/' ("./" ++ path) = "." :: Text.pieces '/' path := by
    simp [Text.pieces, Text.cut]
  simp [place?, h, habs, hpieces, step?]

end Directory

end CommandLine

end SnapshotDiff
