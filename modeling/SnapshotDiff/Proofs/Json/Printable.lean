import SnapshotDiff.Proofs.Document.Spelling
import SnapshotDiff.Proofs.Json.Injective

/-!
# Texts without control characters

A string is written with its control characters escaped, and nothing else in the text of a value can
have any.  So whatever a value holds, its text stays on one line.

## Main definitions

* `Text.isControl` — the control characters below the blank.
* `Text.IsPrintable` — a text has no control characters.

## Main results

* `Text.isPrintable_encode` — no control character stands between quotes.
* `Json.isPrintable_text` — **the text of a value has no control characters.**
-/

namespace SnapshotDiff

namespace Text

/-- The control characters below the blank. -/
def isControl (c : Char) : Bool := c.toNat < 0x20

/-- The text has none of them. -/
def IsPrintable (cs : List Char) : Prop := ∀ c ∈ cs, isControl c = false

instance (cs : List Char) : Decidable (IsPrintable cs) :=
  List.decidableBAll (isControl · = false) cs

theorem isPrintable_append {cs ds : List Char} :
    IsPrintable (cs ++ ds) ↔ IsPrintable cs ∧ IsPrintable ds := List.forall_mem_append

theorem isPrintable_encode (cs : List Char) : IsPrintable (Quoted.encode cs) := by
  intro d hd
  obtain ⟨c, -, hd⟩ := List.mem_flatMap.mp hd
  unfold Quoted.encodeChar at hd
  split at hd
  · next e he =>
    rcases List.mem_cons.mp hd with rfl | hd
    · decide
    · obtain rfl := List.mem_singleton.mp hd
      unfold Quoted.shortEscape? at he
      repeat' split at he
      all_goals first | exact Option.some.inj he ▸ (by decide) | cases he
  · split at hd
    · next hlt =>
      have hdigit : ∀ n : Fin 16, isControl (Quoted.hexDigit n.val) = false := by decide
      have hhigh := hdigit ⟨c.toNat / 16, by omega⟩
      have hlow := hdigit ⟨c.toNat % 16, Nat.mod_lt _ (by decide)⟩
      simp only [List.mem_cons, List.not_mem_nil, or_false] at hd
      rcases hd with rfl | rfl | rfl | rfl | rfl | rfl
      · decide
      · decide
      · decide
      · decide
      · exact hhigh
      · exact hlow
    · next hge =>
      obtain rfl := List.mem_singleton.mp hd
      exact decide_eq_false hge

theorem isPrintable_quoted (cs : List Char) :
    IsPrintable (Document.quoted (Quoted.encode cs)).toList := by
  have h : IsPrintable ('"' :: Quoted.encode cs ++ ['"']) :=
    isPrintable_append.mpr ⟨List.forall_mem_cons.mpr ⟨by decide, isPrintable_encode cs⟩,
      List.forall_mem_singleton.mpr (by decide)⟩
  simpa [Document.quoted] using h

/-- Words and numbers have none. -/
theorem isControl_of_isBare {c : Char} (h : Token.isBare c) : isControl c = false := by
  have hnone : ∀ n : Fin 0x20, Token.isBare (Char.ofNat n) = false := by decide
  refine decide_eq_false fun hlt => ?_
  have hnot := hnone ⟨c.toNat, hlt⟩
  rw [Char.ofNat_toNat, h] at hnot
  cases hnot

theorem isPrintable_of_isBare {cs : List Char} (h : ∀ c ∈ cs, Token.isBare c) : IsPrintable cs :=
  fun c hc => isControl_of_isBare (h c hc)

theorem isPrintable_toString (n : Nat) : IsPrintable (toString n).toList := by
  intro c hc
  have hdigits : (toString n).toList = Nat.toDigits 10 n := Nat.toList_repr
  rw [hdigits] at hc
  exact isControl_of_isBare (Token.isBare_of_isDigit
    (Nat.isDigit_of_mem_toDigits (by decide) (by decide) hc))

theorem count_of_isPrintable {cs : List Char} {c : Char} (hc : isControl c) (h : IsPrintable cs) :
    cs.count c = 0 := by
  refine List.count_eq_zero.mpr fun hmem => ?_
  rw [h c hmem] at hc
  cases hc

end Text

namespace Json

open Text Document

mutual

theorem isPrintable_compact : ∀ v : Json, IsPrintable v.document.compact.toList
  | null => by decide
  | bool b => by cases b <;> decide +kernel
  | int n => by
    rw [document, compact, String.toList_ofList]
    exact isPrintable_of_isBare (Numeral.isBare_of_ofChars? (ofChars?_integerChars n))
  | float x => by
    obtain ⟨m, hread, -⟩ := x.exists_numeral_text
    rw [document, compact, String.toList_ofList]
    exact isPrintable_of_isBare (Numeral.isBare_of_ofChars? hread)
  | str s => isPrintable_quoted s.toList
  | arr [] => by decide
  | arr (v :: vs) => by
    simp only [document, itemDocuments, compact, String.toList_append, isPrintable_append]
    exact ⟨⟨⟨by decide, isPrintable_compact v⟩, isPrintable_compactItems vs⟩,
      by decide⟩
  | obj [] => by decide
  | obj ((k, v) :: ms) => by
    simp only [document, memberDocuments, compact, lexeme, String.toList_append, isPrintable_append]
    exact ⟨⟨⟨⟨⟨by decide, isPrintable_quoted k.toList⟩, by decide⟩,
      isPrintable_compact v⟩, isPrintable_compactMembers ms⟩, by decide⟩

theorem isPrintable_compactItems : ∀ vs : List Json,
    IsPrintable (compactItems (itemDocuments vs)).toList
  | [] => fun _ hc => absurd hc List.not_mem_nil
  | v :: vs => by
    simp only [itemDocuments, compactItems, String.toList_append, isPrintable_append]
    exact ⟨⟨by decide, isPrintable_compact v⟩, isPrintable_compactItems vs⟩

theorem isPrintable_compactMembers : ∀ ms : List (String × Json),
    IsPrintable (compactMembers (memberDocuments ms)).toList
  | [] => fun _ hc => absurd hc List.not_mem_nil
  | (k, v) :: ms => by
    simp only [memberDocuments, compactMembers, lexeme, String.toList_append, isPrintable_append]
    exact ⟨⟨⟨⟨by decide, isPrintable_quoted k.toList⟩, by decide⟩,
      isPrintable_compact v⟩, isPrintable_compactMembers ms⟩

end

/-- **The text of a value has no control characters.** -/
theorem isPrintable_text (v : Json) : IsPrintable v.text.toList := isPrintable_compact v

end Json

end SnapshotDiff
