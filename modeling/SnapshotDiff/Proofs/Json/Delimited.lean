import SnapshotDiff.Instant
import SnapshotDiff.Json.Text
import SnapshotDiff.Proofs.Text.Delimited

/-!
# The texts of values are delimited

Numbers and instants are written with plain characters only, strings stand between quotes, and
arrays and objects between brackets.  So the text of a JSON value ends where its reader first meets
a stop.

## Main results

* `Binary64.isPlain_text`, `Instant.isPlain_text` — numbers and instants have plain characters.
* `Json.delimited_text` — the text of a value is delimited.
-/

namespace SnapshotDiff

open Text

/-! ### Digits -/

theorem Text.isPlain_of_isDigit {c : Char} (h : c.isDigit) : isPlain c := by
  have hne : ∀ d : Char, d.isDigit = false → c ≠ d := fun d hd hcd => by simp [← hcd, h] at hd
  simp [isPlain, isOpening, isClosing, hne '"' (by decide), hne '[' (by decide),
    hne '\x7b' (by decide), hne ']' (by decide), hne '\x7d' (by decide), hne ',' (by decide)]

theorem Text.isPlain_toDigits (n : Nat) : ∀ c ∈ Nat.toDigits 10 n, isPlain c :=
  fun _ hc => isPlain_of_isDigit (Nat.isDigit_of_mem_toDigits (by decide) (by decide) hc)

/-! ### Floating-point numbers -/

namespace Binary64

theorem isPlain_zeros (n : Nat) : ∀ c ∈ zeros n, isPlain c := by
  intro c hc
  rw [zeros, List.mem_replicate] at hc
  exact hc.2 ▸ by decide

theorem isPlain_significantDigits (n : Nat) : ∀ c ∈ significantDigits n, isPlain c := by
  intro c hc
  rw [significantDigits, List.mem_reverse] at hc
  have hmem := (List.dropWhile_sublist _).subset hc
  exact isPlain_toDigits n c (List.mem_reverse.mp hmem)

theorem isPlain_positional (pointed : Bool) {ds : List Char} (hds : ∀ c ∈ ds, isPlain c)
    (e : Int) : ∀ c ∈ positional pointed ds e, isPlain c := by
  intro c hc
  simp only [positional] at hc
  split at hc
  · simp only [List.cons_append, List.mem_cons, List.mem_append] at hc
    rcases hc with rfl | rfl | hc | hc
    · decide
    · decide
    · exact isPlain_zeros _ c hc
    · exact hds c hc
  · split at hc
    · simp only [List.mem_append] at hc
      rcases hc with (hc | hc) | hc
      · exact hds c hc
      · exact isPlain_zeros _ c hc
      · exact List.all_eq_true.mp (by cases pointed <;> decide) c hc
    · simp only [List.mem_append, List.mem_cons] at hc
      rcases hc with hc | rfl | hc
      · exact hds c (List.mem_of_mem_take hc)
      · decide
      · exact hds c (List.mem_of_mem_drop hc)

theorem isPlain_scientific {ds : List Char} (hds : ∀ c ∈ ds, isPlain c) (e : Int) :
    ∀ c ∈ scientific ds e, isPlain c := by
  intro c hc
  simp only [scientific, List.mem_append, List.mem_cons] at hc
  rcases hc with (hc | hc) | rfl | rfl | hc
  · exact hds c (List.mem_of_mem_take hc)
  · split at hc
    · simp at hc
    · rcases List.mem_cons.mp hc with rfl | hc
      · decide
      · exact hds c (List.mem_of_mem_drop hc)
  · decide
  · split <;> decide
  · exact isPlain_toDigits _ c hc

/-- A number is written with plain characters, in every style. -/
theorem isPlain_text (style : NumberStyle) (x : Binary64) : ∀ c ∈ x.text style, isPlain c := by
  -- a sign apart, a number is a zero or its shortest digits, laid out in one of two ways
  have hdigits : ∀ c ∈ (if x.rank.val = 0 then positional style.pointed ['0'] 0
      else layOut style (shortest style.tie x)), isPlain c := by
    split
    · exact isPlain_positional _ (List.all_eq_true.mp (by decide)) _
    · simp only [layOut]
      split
      · exact isPlain_positional _ (isPlain_significantDigits _) _
      · exact isPlain_scientific (isPlain_significantDigits _) _
  intro c hc
  rw [text] at hc
  split at hc
  · rcases List.mem_cons.mp hc with rfl | hc
    · decide
    · exact hdigits c hc
  · exact hdigits c hc

end Binary64

/-! ### Instants -/

namespace Instant

theorem isPlain_zeroPadded (width n : Nat) : ∀ c ∈ zeroPadded width n, isPlain c := by
  intro c hc
  rw [zeroPadded, List.mem_append, List.mem_replicate] at hc
  rcases hc with ⟨-, rfl⟩ | hc
  · decide
  · exact isPlain_toDigits n c hc

/-- An instant is written with plain characters. -/
theorem isPlain_text (t : Instant) : ∀ c ∈ t.text.toList, isPlain c := by
  -- the year may have a sign, and the fraction may be missing
  have hyear : ∀ c ∈ yearChars t.date.year, isPlain c := by
    intro c hc
    unfold yearChars at hc
    split at hc
    · exact isPlain_zeroPadded _ _ c hc
    · rcases List.mem_cons.mp hc with rfl | hc
      · split <;> decide
      · exact isPlain_zeroPadded _ _ c hc
  have hfraction : ∀ c ∈ fractionChars t.nanosecond, isPlain c := by
    intro c hc
    simp only [fractionChars] at hc
    repeat' split at hc
    · simp at hc
    all_goals
      rcases List.mem_cons.mp hc with rfl | hc
      · decide
      · exact isPlain_zeroPadded _ _ c hc
  intro c hc
  simp only [text, textIn, String.toList_append, String.toList_ofList, List.mem_append,
    List.mem_cons] at hc
  rcases hc with (((((((hc | rfl | hc) | rfl | hc) | rfl | hc) | rfl | hc) | rfl | hc) | hc) | hc)
  all_goals first
    | decide
    | exact hyear c hc
    | exact hfraction c hc
    | exact isPlain_zeroPadded _ _ c hc
    | exact List.all_eq_true.mp (by decide) c hc

end Instant

/-! ### Documents and values -/

namespace Document

theorem delimited_quoted_encode (cs : List Char) :
    Delimited (quoted (Quoted.encode cs)).toList := by
  have h := Text.delimited_quoted cs
  simpa [quoted] using h

theorem delimited_colon {a b : String} (ha : Delimited a.toList) (hb : Delimited b.toList) :
    Delimited (a ++ ":" ++ b).toList := by
  rw [String.toList_append, String.toList_append]
  exact (ha.append (delimited_of_isPlain (List.all_eq_true.mp (by decide)))).append hb

end Document

namespace Json

open Document

mutual

/-- The text of a value is delimited. -/
theorem delimited_compact : ∀ v : Json, Delimited v.document.compact.toList
  | null => delimited_of_isPlain (List.all_eq_true.mp (by decide))
  | bool b => delimited_of_isPlain (List.all_eq_true.mp (by cases b <;> decide))
  | int n => by
    refine delimited_of_isPlain fun c hc => ?_
    simp only [document, compact, String.toList_ofList, integerChars] at hc
    split at hc
    · rcases List.mem_cons.mp hc with rfl | hc
      · decide
      · exact isPlain_toDigits _ c hc
    · exact isPlain_toDigits _ c hc
  | float x => by
    refine delimited_of_isPlain fun c hc => ?_
    simp only [document, compact, String.toList_ofList] at hc
    exact x.isPlain_text _ c hc
  | str s => delimited_quoted_encode s.toList
  | arr [] => delimited_nil.enclosed.delimited_bracketed (by decide) (by decide)
  | arr (v :: vs) => by
    have h := ((delimited_compact v).enclosed.append (enclosed_compactItems vs)).delimited_bracketed
      (o := '[') (c := ']') (by decide) (by decide)
    simpa [document, itemDocuments, compact] using h
  | obj [] => delimited_nil.enclosed.delimited_bracketed (by decide) (by decide)
  | obj ((k, v) :: ms) => by
    -- the key, the colon and the value are passed over one after the other
    have hmember := delimited_colon (delimited_quoted_encode k.toList) (delimited_compact v)
    have h := (hmember.enclosed.append (enclosed_compactMembers ms)).delimited_bracketed
      (o := '\x7b') (c := '\x7d') (by decide) (by decide)
    simpa [document, memberDocuments, compact, lexeme] using h

theorem enclosed_compactItems : ∀ vs : List Json, Enclosed (compactItems (itemDocuments vs)).toList
  | [] => fun _ _ => rfl
  | v :: vs => by
    have h := enclosed_comma.append
      ((delimited_compact v).enclosed.append (enclosed_compactItems vs))
    simpa [itemDocuments, compactItems] using h

theorem enclosed_compactMembers :
    ∀ ms : List (String × Json), Enclosed (compactMembers (memberDocuments ms)).toList
  | [] => fun _ _ => rfl
  | (k, v) :: ms => by
    have hmember := delimited_colon (delimited_quoted_encode k.toList) (delimited_compact v)
    have h := enclosed_comma.append (hmember.enclosed.append (enclosed_compactMembers ms))
    simpa [memberDocuments, compactMembers, lexeme] using h

end

/-- **The text of a value is delimited.** -/
theorem delimited_text (v : Json) : Delimited v.text.toList := delimited_compact v

end Json

end SnapshotDiff
