/-!
# Listings

Texts set in order and joined: the pieces that the keys, the paths and the reports are built
from.

## Main definitions

* `ascending` — the distinct texts of a list in ascending order.
* `joined` — texts with a separator between them.
* `pieces` — a text cut at every occurrence of a character.
* `padded` — a text filled up with blanks to a width.
-/

namespace SnapshotDiff

namespace Text

/-- Puts `s` into an ascending list of texts, unless it is there. -/
def insertAscending (s : String) : List String → List String
  | [] => [s]
  | t :: ts => if s < t then s :: t :: ts else if s = t then t :: ts else t :: insertAscending s ts

/-- The distinct members of a list in ascending order. -/
def ascending : List String → List String
  | [] => []
  | s :: ss => insertAscending s (ascending ss)

/-- The texts in turn, with `separator` between any two neighbours. -/
def joined (separator : String) : List String → String
  | [] => ""
  | [s] => s
  | s :: t :: ts => s ++ separator ++ joined separator (t :: ts)

/-- The stretches between the occurrences of `mark`; one more than there are marks. -/
def cut (mark : Char) : List Char → List (List Char)
  | [] => [[]]
  | c :: cs =>
    if c = mark then [] :: cut mark cs
    else match cut mark cs with
      | [] => [[c]]
      | p :: ps => (c :: p) :: ps

/-- The pieces of a text between the occurrences of `mark`. -/
def pieces (mark : Char) (s : String) : List String := (cut mark s.toList).map String.ofList

/-- The text followed by as many blanks as it falls short of `width` characters. -/
def padded (width : Nat) (s : String) : String :=
  s ++ String.ofList (List.replicate (width - s.length) ' ')

@[simp] theorem ascending_nil : ascending [] = [] := rfl

@[simp] theorem ascending_cons (s : String) (ss : List String) :
    ascending (s :: ss) = insertAscending s (ascending ss) := rfl

@[simp] theorem joined_nil (separator : String) : joined separator [] = "" := rfl

@[simp] theorem joined_singleton (separator s : String) : joined separator [s] = s := rfl

@[simp] theorem joined_cons_cons (separator s t : String) (ts : List String) :
    joined separator (s :: t :: ts) = s ++ separator ++ joined separator (t :: ts) := rfl

@[simp] theorem cut_nil (mark : Char) : cut mark [] = [[]] := rfl

theorem cut_ne_nil (mark : Char) (cs : List Char) : cut mark cs ≠ [] := by
  cases cs with
  | nil => simp
  | cons c cs =>
    simp only [cut]
    split
    · simp
    · split <;> simp

/-- A text without the mark is one piece. -/
theorem cut_of_not_mem {mark : Char} {cs : List Char} (h : mark ∉ cs) : cut mark cs = [cs] := by
  induction cs with
  | nil => rfl
  | cons c cs ih =>
    obtain ⟨hc, hcs⟩ := not_or.mp (mt List.mem_cons.mpr h)
    simp [cut, Ne.symm hc, ih hcs]

/-- The first piece ends at the first mark. -/
theorem cut_append {mark : Char} {p : List Char} (h : mark ∉ p) (cs : List Char) :
    cut mark (p ++ mark :: cs) = p :: cut mark cs := by
  induction p with
  | nil => simp [cut]
  | cons c p ih =>
    obtain ⟨hc, hp⟩ := not_or.mp (mt List.mem_cons.mpr h)
    simp [cut, Ne.symm hc, ih hp]

/-- Pieces without the mark that are joined by it are cut apart again. -/
theorem cut_joined {mark : Char} {separator : String} (hseparator : separator.toList = [mark])
    {ps : List (List Char)} (hne : ps ≠ []) (h : ∀ p ∈ ps, mark ∉ p) :
    cut mark (joined separator (ps.map String.ofList)).toList = ps := by
  induction ps with
  | nil => exact absurd rfl hne
  | cons p ps ih =>
    obtain ⟨hp, hps⟩ := List.forall_mem_cons.mp h
    cases ps with
    | nil => simp [cut_of_not_mem hp]
    | cons q qs =>
      have htail := ih (by simp) hps
      rw [List.map_cons] at htail
      simp [hseparator, cut_append hp, htail]

theorem pieces_of_not_mem {mark : Char} {s : String} (h : mark ∉ s.toList) :
    pieces mark s = [s] := by
  simp [pieces, cut_of_not_mem h]

theorem mem_insertAscending {s x : String} {ts : List String} :
    x ∈ insertAscending s ts ↔ x = s ∨ x ∈ ts := by
  induction ts with
  | nil => simp [insertAscending]
  | cons t ts ih =>
    simp only [insertAscending]
    split
    · simp
    · split
      · next h => subst h; simp
      · simp only [List.mem_cons, ih]
        exact ⟨by rintro (h | h | h) <;> simp [h], by rintro (h | h | h) <;> simp [h]⟩

/-- Sorting loses no text and adds none. -/
theorem mem_ascending {x : String} {ss : List String} : x ∈ ascending ss ↔ x ∈ ss := by
  induction ss with
  | nil => simp
  | cons s ss ih => simp [mem_insertAscending, ih]

end Text

end SnapshotDiff
