import SnapshotDiff.Proofs.Binary64.ReadBack
import SnapshotDiff.Proofs.Json.Delimited

/-!
# Different values have different texts

The first character of a text tells the kind of its value.  Numbers are told apart by what their
numerals stand for, and an integer from a floating-point number by its numeral, which has neither
fraction nor exponent.  Strings are read back, and the texts inside brackets end where they seem to.

## Main definitions

* `Json.kindOfFirst` — the kind of a value whose text begins with a character.

## Main results

* `Quoted.encode_append_inj` — a written string ends at the quote behind it, whatever follows.
* `Json.integerChars_inj` — different integers have different texts.
* `Json.text_inj` — **different values have different texts.**
-/

namespace SnapshotDiff

open Text

/-! ### Strings -/

namespace Quoted

/-- What stands behind the first quote that belongs to no escape. -/
def afterQuote : (escaped : Bool) → List Char → List Char
  | _, [] => []
  | true, _ :: cs => afterQuote false cs
  | false, c :: cs => if c = '"' then cs else afterQuote (c = '\\') cs

theorem afterQuote_encodeChar (c : Char) (rest : List Char) :
    afterQuote false (encodeChar c ++ rest) = afterQuote false rest := by
  rcases encodeChar_cases c with ⟨e, cs, hc, hcs⟩ | ⟨hc, hquote, hslash⟩
  · have hrest : afterQuote false (cs ++ rest) = afterQuote false rest := by
      clear hc
      induction cs with
      | nil => rfl
      | cons c cs ih =>
        obtain ⟨⟨hquote, hslash⟩, hcs⟩ := List.forall_mem_cons.mp hcs
        simpa [afterQuote, hquote, hslash] using ih hcs
    simpa [hc, afterQuote] using hrest
  · simp [hc, afterQuote, hquote, hslash]

theorem afterQuote_encode (cs r : List Char) : afterQuote false (encode cs ++ '"' :: r) = r := by
  induction cs with
  | nil => rfl
  | cons c cs ih =>
    rw [encode, List.flatMap_cons, List.append_assoc, afterQuote_encodeChar]
    exact ih

/-- **A written string ends at the quote behind it**, whatever follows. -/
theorem encode_append_inj {cs ds r s : List Char}
    (h : encode cs ++ '"' :: r = encode ds ++ '"' :: s) : cs = ds ∧ r = s := by
  have hrest : r = s := by
    have hread := congrArg (afterQuote false) h
    rwa [afterQuote_encode, afterQuote_encode] at hread
  subst hrest
  have hread := congrArg decode? (List.append_cancel_right h)
  rw [decode?_encode, decode?_encode] at hread
  exact ⟨Option.some.inj hread, rfl⟩

end Quoted

/-! ### Numbers -/

namespace Numeral

/-- A numeral begins with a minus sign or a digit. -/
theorem exists_first {cs : List Char} {n : Numeral} (h : ofChars? cs = some n) :
    ∃ c r, cs = c :: r ∧ (c = '-' ∨ c.isDigit) := by
  cases cs with
  | nil => simp [ofChars?, ofUnsigned?] at h
  | cons c r =>
    refine ⟨c, r, rfl, ?_⟩
    by_contra hne
    obtain ⟨hminus, hdigit⟩ := not_or.mp hne
    rw [ofChars?] at h
    · simp [ofUnsigned?, hdigit] at h
    · rintro cs hcs
      exact hminus (List.cons.inj hcs).1

theorem isWholePart_toDigits (n : Nat) : IsWholePart (Nat.toDigits 10 n) := by
  refine ⟨Nat.toDigits_ne_nil, fun c hc => Nat.isDigit_of_mem_toDigits (by decide) (by decide) hc,
    fun hhead => ?_⟩
  cases n with
  | zero => rfl
  | succ n => exact absurd hhead (Binary64.head?_toDigits_ne n.succ_pos)

end Numeral

namespace Json

/-- The numeral of an integer. -/
theorem ofChars?_integerChars (n : Int) : Numeral.ofChars? (integerChars n)
    = some ⟨decide (n < 0), Nat.toDigits 10 n.natAbs, none, none⟩ := by
  have hread : ∀ negative, Numeral.ofUnsigned? negative (Nat.toDigits 10 n.natAbs)
      = some ⟨negative, Nat.toDigits 10 n.natAbs, none, none⟩ := by
    intro negative
    have hbare := Numeral.ofUnsigned?_bare negative (Numeral.isWholePart_toDigits n.natAbs)
      (r := []) (by simp) rfl
    rwa [List.append_nil] at hbare
  rw [integerChars]
  split
  · next hneg =>
    rw [Numeral.ofChars?, hread, decide_eq_true hneg]
  · next hneg =>
    rw [Numeral.ofChars?, hread, decide_eq_false hneg]
    intro cs hcs
    exact Binary64.ne_minus_of_ofUnsigned? (hread false) (by rw [hcs]; rfl)

/-- **Different integers have different texts.** -/
theorem integerChars_inj {m n : Int} (h : integerChars m = integerChars n) : m = n := by
  have hnumeral := ofChars?_integerChars m
  rw [h, ofChars?_integerChars n] at hnumeral
  simp only [Option.some.injEq, Numeral.mk.injEq, decide_eq_decide, and_true] at hnumeral
  have habs := congrArg Numeral.digitsValue hnumeral.2
  rw [Numeral.digitsValue_toDigits, Numeral.digitsValue_toDigits] at habs
  have hsign := hnumeral.1
  omega

/-- The text of an integer is that of no floating-point number. -/
theorem integerChars_ne_text (n : Int) (x : Binary64) : integerChars n ≠ x.text numberStyle := by
  intro h
  obtain ⟨m, hread, hwhole, -⟩ := x.exists_numeral_text
  rw [← h, ofChars?_integerChars] at hread
  rw [← Option.some.inj hread] at hwhole
  cases hwhole

/-! ### Written values -/

open Document (compactItems compactMembers)

/-- What stands behind an item of an array. -/
def behindItem (vs : List Json) : List Char := (compactItems (itemDocuments vs)).toList ++ [']']

/-- What stands behind a member of an object. -/
def behindMember (ms : List (String × Json)) : List Char :=
  (compactMembers (memberDocuments ms)).toList ++ ['\x7d']

/-- A member of an object with what stands behind it. -/
def memberChars (k : String) (v : Json) (ms : List (String × Json)) : List Char :=
  '"' :: (Quoted.encode k.toList ++ '"' :: ':' :: (v.text.toList ++ behindMember ms))

theorem behindItem_nil : behindItem [] = [']'] := rfl

theorem behindMember_nil : behindMember [] = ['\x7d'] := rfl

theorem behindItem_cons (v : Json) (vs : List Json) :
    behindItem (v :: vs) = ',' :: (v.text.toList ++ behindItem vs) := by
  simp [behindItem, itemDocuments, compactItems, text]

theorem behindMember_cons (k : String) (v : Json) (ms : List (String × Json)) :
    behindMember ((k, v) :: ms) = ',' :: memberChars k v ms := by
  simp [behindMember, memberChars, memberDocuments, compactMembers, text, lexeme, Document.quoted]

theorem toList_text_str (s : String) :
    (str s).text.toList = '"' :: (Quoted.encode s.toList ++ ['"']) := by
  simp [text, document, Document.compact, lexeme, Document.quoted]

theorem toList_text_arr (v : Json) (vs : List Json) :
    (arr (v :: vs)).text.toList = '[' :: (v.text.toList ++ behindItem vs) := by
  simp [text, document, itemDocuments, Document.compact, behindItem]

theorem toList_text_obj (k : String) (v : Json) (ms : List (String × Json)) :
    (obj ((k, v) :: ms)).text.toList = '\x7b' :: memberChars k v ms := by
  simp [text, document, memberDocuments, Document.compact, memberChars, behindMember, lexeme,
    Document.quoted]

theorem stops_behindItem (vs : List Json) : Stops (behindItem vs) := by
  cases vs with
  | nil => exact ⟨']', [], rfl, by decide⟩
  | cons v vs => exact ⟨',', _, behindItem_cons v vs, by decide⟩

theorem stops_behindMember (ms : List (String × Json)) : Stops (behindMember ms) := by
  cases ms with
  | nil => exact ⟨'\x7d', [], rfl, by decide⟩
  | cons m ms => exact ⟨',', _, behindMember_cons m.1 m.2 ms, by decide⟩

/-! ### Kinds -/

/-- The kind of a value whose text begins with the character. -/
def kindOfFirst (c : Char) : String :=
  if c = 'n' then kindName null
  else if c = 't' ∨ c = 'f' then kindName (bool true)
  else if c = '"' then kindName (str "")
  else if c = '[' then kindName (arr [])
  else if c = '\x7b' then kindName (obj [])
  else kindName (int 0)

theorem kindOfFirst_of_number {c : Char} (h : c = '-' ∨ c.isDigit) :
    kindOfFirst c = kindName (int 0) := by
  rcases h with rfl | h
  · rfl
  · have hne : ∀ d : Char, d.isDigit = false → c ≠ d := fun d hd hcd => by simp [← hcd, h] at hd
    simp [kindOfFirst, hne 'n' rfl, hne 't' rfl, hne 'f' rfl, hne '"' rfl, hne '[' rfl,
      hne '\x7b' rfl]

/-- The first character of a text tells the kind of the value. -/
theorem exists_first (v : Json) :
    ∃ c cs, v.text.toList = c :: cs ∧ kindOfFirst c = v.kindName := by
  cases v with
  | null => exact ⟨'n', _, rfl, rfl⟩
  | bool b => cases b <;> exact ⟨_, _, rfl, rfl⟩
  | int n =>
    obtain ⟨c, cs, hcs, hc⟩ := Numeral.exists_first (ofChars?_integerChars n)
    refine ⟨c, cs, ?_, kindOfFirst_of_number hc⟩
    rw [text, document, Document.compact, String.toList_ofList, hcs]
  | float x =>
    obtain ⟨m, hread, -⟩ := x.exists_numeral_text
    obtain ⟨c, cs, hcs, hc⟩ := Numeral.exists_first hread
    refine ⟨c, cs, ?_, kindOfFirst_of_number hc⟩
    rw [text, document, Document.compact, String.toList_ofList, hcs]
  | str s => exact ⟨'"', _, toList_text_str s, rfl⟩
  | arr vs =>
    cases vs with
    | nil => exact ⟨'[', _, rfl, rfl⟩
    | cons v vs =>
      exact ⟨'[', _, toList_text_arr v vs, rfl⟩
  | obj ms =>
    cases ms with
    | nil => exact ⟨'\x7b', _, rfl, rfl⟩
    | cons m ms =>
      obtain ⟨k, v⟩ := m
      exact ⟨'\x7b', _, toList_text_obj k v ms, rfl⟩

theorem toList_text_ne_nil (v : Json) : v.text.toList ≠ [] := by
  obtain ⟨c, cs, h, -⟩ := exists_first v
  simp [h]

theorem kindName_eq_of_text {v w : Json} (h : v.text = w.text) : v.kindName = w.kindName := by
  obtain ⟨c, cs, hcs, hc⟩ := exists_first v
  obtain ⟨d, ds, hds, hd⟩ := exists_first w
  rw [h, hds] at hcs
  rw [← hc, ← hd, (List.cons.inj hcs).1]

/-! ### Items and members -/

/-- An item ends where the next one begins. -/
theorem item_append_inj {v w : Json} {vs ws : List Json}
    (h : v.text.toList ++ behindItem vs = w.text.toList ++ behindItem ws) :
    v.text = w.text ∧ behindItem vs = behindItem ws := by
  obtain ⟨htext, hrest⟩ := (delimited_text v).append_inj (delimited_text w) (stops_behindItem vs)
    (stops_behindItem ws) h
  exact ⟨String.toList_inj.mp htext, hrest⟩

/-- A member ends where the next one begins, and its key at the quote behind it. -/
theorem memberChars_inj {k l : String} {v w : Json} {ms ns : List (String × Json)}
    (h : memberChars k v ms = memberChars l w ns) :
    k = l ∧ v.text = w.text ∧ behindMember ms = behindMember ns := by
  obtain ⟨hkey, hvalue⟩ := Quoted.encode_append_inj (List.cons.inj h).2
  obtain ⟨htext, hrest⟩ := (delimited_text v).append_inj (delimited_text w)
    (stops_behindMember ms) (stops_behindMember ns) (List.cons.inj hvalue).2
  exact ⟨String.toList_inj.mp hkey, String.toList_inj.mp htext, hrest⟩

/-- An array that holds something is not written as the empty one is. -/
theorem text_arr_cons_ne (v : Json) (vs : List Json) : (arr (v :: vs)).text ≠ (arr []).text := by
  intro h
  have hlist := congrArg String.toList h
  rw [toList_text_arr] at hlist
  have hempty : v.text.toList ++ behindItem vs = [] ++ behindItem [] := (List.cons.inj hlist).2
  exact toList_text_ne_nil v ((delimited_text v).append_inj delimited_nil (stops_behindItem vs)
    (stops_behindItem []) hempty).1

theorem text_obj_cons_ne (k : String) (v : Json) (ms : List (String × Json)) :
    (obj ((k, v) :: ms)).text ≠ (obj []).text := by
  intro h
  have hlist := congrArg String.toList h
  rw [toList_text_obj] at hlist
  exact absurd (List.cons.inj (List.cons.inj hlist).2).1 (by decide)

/-! ### Values -/

mutual

/-- **Different values have different texts.** -/
theorem text_inj : ∀ {v w : Json}, v.text = w.text → v = w
  | null, w, h => by
    have hkind := kindName_eq_of_text h
    cases w <;> simp [kindName] at hkind ⊢
  | bool b, w, h => by
    have hkind := kindName_eq_of_text h
    cases w with
    | bool c => cases b <;> cases c <;> first | rfl | exact absurd h (by decide)
    | _ => simp [kindName] at hkind
  | int m, w, h => by
    have hkind := kindName_eq_of_text h
    cases w with
    | int n => exact congrArg int (integerChars_inj (String.ofList_inj.mp h))
    | float y => exact absurd (String.ofList_inj.mp h) (integerChars_ne_text m y)
    | _ => simp [kindName] at hkind
  | float x, w, h => by
    have hkind := kindName_eq_of_text h
    cases w with
    | int n => exact absurd (String.ofList_inj.mp h).symm (integerChars_ne_text n x)
    | float y => exact congrArg float (Binary64.text_inj (String.ofList_inj.mp h))
    | _ => simp [kindName] at hkind
  | str s, w, h => by
    have hkind := kindName_eq_of_text h
    cases w with
    | str t =>
      have hlist := congrArg String.toList h
      rw [toList_text_str, toList_text_str] at hlist
      have hkey := Quoted.encode_append_inj (List.cons.inj hlist).2
      exact congrArg str (String.toList_inj.mp hkey.1)
    | _ => simp [kindName] at hkind
  | arr [], w, h => by
    have hkind := kindName_eq_of_text h
    cases w with
    | arr ws =>
      cases ws with
      | nil => rfl
      | cons w ws => exact absurd h.symm (text_arr_cons_ne w ws)
    | _ => simp [kindName] at hkind
  | arr (v :: vs), w, h => by
    have hkind := kindName_eq_of_text h
    cases w with
    | arr ws =>
      cases ws with
      | nil => exact absurd h (text_arr_cons_ne v vs)
      | cons w ws =>
        have hlist := congrArg String.toList h
        rw [toList_text_arr, toList_text_arr] at hlist
        obtain ⟨htext, hrest⟩ := item_append_inj (List.cons.inj hlist).2
        rw [text_inj htext, items_inj vs ws hrest]
    | _ => simp [kindName] at hkind
  | obj [], w, h => by
    have hkind := kindName_eq_of_text h
    cases w with
    | obj ns =>
      cases ns with
      | nil => rfl
      | cons n ns => exact absurd h.symm (text_obj_cons_ne n.1 n.2 ns)
    | _ => simp [kindName] at hkind
  | obj ((k, v) :: ms), w, h => by
    have hkind := kindName_eq_of_text h
    cases w with
    | obj ns =>
      cases ns with
      | nil => exact absurd h (text_obj_cons_ne k v ms)
      | cons n ns =>
        obtain ⟨l, w⟩ := n
        have hlist := congrArg String.toList h
        rw [toList_text_obj, toList_text_obj] at hlist
        obtain ⟨rfl, htext, hrest⟩ := memberChars_inj (List.cons.inj hlist).2
        rw [text_inj htext, members_inj ms ns hrest]
    | _ => simp [kindName] at hkind

theorem items_inj : ∀ vs ws : List Json, behindItem vs = behindItem ws → vs = ws
  | [] => by
    intro ws h
    cases ws with
    | nil => rfl
    | cons w ws =>
      rw [behindItem_nil, behindItem_cons] at h
      exact absurd (List.cons.inj h).1 (by decide)
  | v :: vs => by
    intro ws h
    rw [behindItem_cons] at h
    cases ws with
    | nil =>
      rw [behindItem_nil] at h
      exact absurd (List.cons.inj h).1 (by decide)
    | cons w ws =>
      rw [behindItem_cons] at h
      obtain ⟨htext, hrest⟩ := item_append_inj (List.cons.inj h).2
      rw [text_inj htext, items_inj vs ws hrest]

theorem members_inj : ∀ ms ns : List (String × Json),
    behindMember ms = behindMember ns → ms = ns
  | [] => by
    intro ns h
    cases ns with
    | nil => rfl
    | cons n ns =>
      obtain ⟨l, w⟩ := n
      rw [behindMember_nil, behindMember_cons] at h
      exact absurd (List.cons.inj h).1 (by decide)
  | (k, v) :: ms => by
    intro ns h
    rw [behindMember_cons] at h
    cases ns with
    | nil =>
      rw [behindMember_nil] at h
      exact absurd (List.cons.inj h).1 (by decide)
    | cons n ns =>
      obtain ⟨l, w⟩ := n
      rw [behindMember_cons] at h
      obtain ⟨rfl, htext, hrest⟩ := memberChars_inj (List.cons.inj h).2
      rw [text_inj htext, members_inj ms ns hrest]

end

end Json

end SnapshotDiff
