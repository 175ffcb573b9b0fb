import SnapshotDiff.Proofs.Document.ReadBack
import SnapshotDiff.Proofs.Json.Bounded

/-!
# Values are read back

A value that has one representation and integers of 64 bits is read back from its document, as long
as there is room for the levels of its arrays and objects.

## Main definitions

* `Document.depth` — the levels of arrays and objects.

## Main results

* `Json.value?_integerChars` — a written integer is read back.
* `Json.valueWithin?_document` — **a value is read back from its document.**
-/

namespace SnapshotDiff

namespace Document

mutual

/-- The number of arrays and objects that lie inside each other. -/
def depth : Document → Nat
  | array ds => depthItems ds + 1
  | object ms => depthMembers ms + 1
  | _ => 0

/-- The greatest depth of an item. -/
def depthItems : List Document → Nat
  | [] => 0
  | d :: ds => max (depth d) (depthItems ds)

/-- The greatest depth of the value of a member. -/
def depthMembers : List (List Char × Document) → Nat
  | [] => 0
  | (_, d) :: ms => max (depth d) (depthMembers ms)

end

variable {room : Nat}

theorem depthItems_le_iff {ds : List Document} :
    depthItems ds ≤ room ↔ ∀ d ∈ ds, d.depth ≤ room := by
  induction ds with
  | nil => simp [depthItems]
  | cons d ds ih => rw [depthItems, Nat.max_le, ih, List.forall_mem_cons]

theorem depthMembers_le_iff {ms : List (List Char × Document)} :
    depthMembers ms ≤ room ↔ ∀ m ∈ ms, m.2.depth ≤ room := by
  induction ms with
  | nil => simp [depthMembers]
  | cons m ms ih =>
    obtain ⟨k, d⟩ := m
    rw [depthMembers, Nat.max_le, ih, List.forall_mem_cons]

/-- An array takes one level, and leaves the rest to its items. -/
theorem depth_array_le_iff {ds : List Document} :
    (array ds).depth ≤ room ↔ room ≠ 0 ∧ ∀ d ∈ ds, d.depth ≤ room - 1 := by
  rw [depth, ← depthItems_le_iff]
  omega

/-- An object takes one level, and leaves the rest to its members. -/
theorem depth_object_le_iff {ms : List (List Char × Document)} :
    (object ms).depth ≤ room ↔ room ≠ 0 ∧ ∀ m ∈ ms, m.2.depth ≤ room - 1 := by
  rw [depth, ← depthMembers_le_iff]
  omega

/-- A written text is read back. -/
@[simp] theorem decoded?_lexeme (s : String) : decoded? (Json.lexeme s) = some s := by
  rw [decoded?, Json.lexeme, Quoted.decode?_encode, Option.map_some, String.ofList_toList]

end Document

namespace Json

open Document

/-! ### Values as documents -/

mutual

/-- The document of a value has encoded texts and numerals only. -/
theorem isLexical_document : ∀ v : Json, v.document.IsLexical
  | null | bool _ => by simp [document, IsLexical]
  | int n => by
    rw [document, IsLexical, ofChars?_integerChars]
    rfl
  | float x => by
    obtain ⟨n, hn, -⟩ := x.exists_numeral_text
    rw [document, IsLexical, hn]
    rfl
  | str s => by
    rw [document, IsLexical]
    exact ⟨s.toList, rfl⟩
  | arr vs => by
    rw [document, IsLexical]
    exact isLexical_itemDocuments vs
  | obj ms => by
    rw [document, IsLexical]
    exact isLexical_memberDocuments ms

theorem isLexical_itemDocuments : ∀ vs : List Json, IsLexicalItems (itemDocuments vs)
  | [] => trivial
  | v :: vs => ⟨isLexical_document v, isLexical_itemDocuments vs⟩

theorem isLexical_memberDocuments : ∀ ms : List (String × Json),
    IsLexicalMembers (memberDocuments ms)
  | [] => trivial
  | (k, v) :: ms => ⟨⟨k.toList, rfl⟩, isLexical_document v, isLexical_memberDocuments ms⟩

end

/-- Only `null` is written as `null`. -/
theorem document_ne_null {v : Json} (h : v ≠ null) : v.document ≠ .null := by
  cases v with
  | null => exact absurd rfl h
  | bool | int | float | str | arr | obj => simp [document]

/-! ### Reading back -/

/-- A written integer of 64 bits is read back. -/
theorem value?_integerChars {n : Int} (h : isWord n) :
    (Numeral.ofChars? (integerChars n)).bind Numeral.value? = some (int n) := by
  rw [isWord, Bool.and_eq_true, decide_eq_true_iff, decide_eq_true_iff] at h
  have hvalue : (⟨decide (n < 0), Nat.toDigits 10 n.natAbs, none, none⟩ : Numeral).significand
      = n.natAbs := by
    rw [Numeral.significand, Option.getD_none, List.append_nil, Numeral.digitsValue_toDigits]
  rw [ofChars?_integerChars, Option.bind_some, Numeral.value?]
  simp only [hvalue, Numeral.isWhole, Option.isNone_none, Bool.and_true, Bool.true_and,
    Bool.and_eq_true, Bool.not_eq_true', decide_eq_false_iff_not, decide_eq_true_eq, Nat.pow_eq]
  by_cases hneg : n < 0
  · rw [if_neg (fun hpos => hpos.1 hneg), if_pos (by omega)]
    congr 2
    omega
  · rw [if_pos (by omega)]
    congr 2
    omega

mutual

/-- **A value is read back from its document**, if there is room for it. -/
theorem valueWithin?_document : ∀ (v : Json) {room : Nat}, v.Canonical → v.Bounded →
    v.document.depth ≤ room → v.document.valueWithin? room = some v
  | null, _, _, _, _ | bool _, _, _, _, _ => by rw [document, valueWithin?]
  | int n, _, _, hbounded, _ => by
    rw [Bounded] at hbounded
    rw [document, valueWithin?, value?_integerChars hbounded]
  | float x, _, _, _, _ => by rw [document, valueWithin?, x.value?_text]
  | str s, _, _, _, _ => by rw [document, valueWithin?, decoded?_lexeme, Option.map_some]
  | arr vs, room, hcanonical, hbounded, hdepth => by
    rw [Canonical] at hcanonical
    rw [Bounded] at hbounded
    rw [document, depth] at hdepth
    rw [document, valueWithin?, if_neg (by omega),
      itemValues?_itemDocuments vs hcanonical hbounded (by omega), Option.map_some]
  | obj ms, room, hcanonical, hbounded, hdepth => by
    rw [Canonical] at hcanonical
    rw [Bounded] at hbounded
    rw [document, depth] at hdepth
    rw [document, valueWithin?, if_neg (by omega),
      memberValues?_memberDocuments ms hcanonical.2 hbounded (by omega), Option.map_some,
      Table.ofList_eq_self hcanonical.1]

theorem itemValues?_itemDocuments : ∀ (vs : List Json) {room : Nat}, CanonicalItems vs →
    BoundedItems vs → depthItems (itemDocuments vs) ≤ room →
      itemValues? room (itemDocuments vs) = some vs
  | [], _, _, _, _ => rfl
  | v :: vs, room, hcanonical, hbounded, hdepth => by
    rw [itemDocuments, depthItems, Nat.max_le] at hdepth
    rw [itemDocuments, itemValues?, valueWithin?_document v hcanonical.1 hbounded.1 hdepth.1,
      itemValues?_itemDocuments vs hcanonical.2 hbounded.2 hdepth.2]
    rfl

theorem memberValues?_memberDocuments : ∀ (ms : List (String × Json)) {room : Nat},
    CanonicalMembers ms → BoundedMembers ms → depthMembers (memberDocuments ms) ≤ room →
      memberValues? room (memberDocuments ms) = some ms
  | [], _, _, _, _ => rfl
  | (k, v) :: ms, room, hcanonical, hbounded, hdepth => by
    rw [memberDocuments, depthMembers, Nat.max_le] at hdepth
    rw [memberDocuments, memberValues?, decoded?_lexeme,
      valueWithin?_document v hcanonical.1 hbounded.1 hdepth.1,
      memberValues?_memberDocuments ms hcanonical.2 hbounded.2 hdepth.2]
    rfl

end

end Json

end SnapshotDiff
