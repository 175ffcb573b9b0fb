import SnapshotDiff.Text.Listing

/-!
# Dotted paths

The place of a field below the root of an entity: the names of the fields that lead to it, with
dots between them.  The root itself has the empty path.

## Main definitions

* `Path.child` — the path of a field of the object at a path.
* `Path.item` — the path of an item of the array at a path.
* `Path.within` — a path is another one or lies below it.
* `Path.segments` — the names that a path is made of.
-/

namespace SnapshotDiff

namespace Path

/-- The path of the field `name` of the object at `path`. -/
def child (path name : String) : String := if path = "" then name else path ++ "." ++ name

/-- The path of the item at an index of the array at `path`. -/
def item (path : String) (index : Nat) : String := path ++ "[" ++ toString index ++ "]"

/-- What is left of a text behind another one that it starts with. -/
def rest? : (lead cs : List Char) → Option (List Char)
  | [], cs => some cs
  | _ :: _, [] => none
  | l :: ls, c :: cs => if l = c then rest? ls cs else none

/-- The path is `top` or lies below it. -/
def within (path top : String) : Bool :=
  match rest? top.toList path.toList with
  | none => false
  | some [] => true
  | some (c :: _) => c = '.'

/-- The names that a path is made of. -/
def segments (path : String) : List String := Text.pieces '.' path

@[simp] theorem rest?_nil (cs : List Char) : rest? [] cs = some cs := rfl

@[simp] theorem rest?_cons_nil (l : Char) (ls : List Char) : rest? (l :: ls) [] = none := rfl

@[simp] theorem rest?_cons_cons (l c : Char) (ls cs : List Char) :
    rest? (l :: ls) (c :: cs) = if l = c then rest? ls cs else none := rfl

theorem rest?_eq_some_iff {lead cs rest : List Char} :
    rest? lead cs = some rest ↔ cs = lead ++ rest := by
  induction lead generalizing cs with
  | nil => simp
  | cons l ls ih =>
    cases cs with
    | nil => simp
    | cons c cs =>
      by_cases h : l = c
      · simp [h, ih]
      · simp [h, Ne.symm h]

/-- A path lies within itself. -/
theorem within_self (path : String) : within path path := by
  have h : rest? path.toList path.toList = some [] := by simp [rest?_eq_some_iff]
  simp [within, h]

@[simp] theorem child_root (name : String) : child "" name = name := rfl

end Path

end SnapshotDiff
