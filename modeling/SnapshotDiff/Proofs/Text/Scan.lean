import SnapshotDiff.Text.Scan
import SnapshotDiff.Proofs.Binary64.ReadBack

/-!
# Scans and what they read

A scan reads the texts of a kind: whatever it has read is one of them, and it reads each of them
whole where the text ends or goes on with a character that the scan stops at.

## Main definitions

* `Numeral.IsNumber` — some digits, not too few and not too many, that write a number.
* `Scan.Reads` — a scan reads the texts of a kind.

## Main results

* `Scan.exists_of_bind`, `Scan.bind_eq` — a scan in two steps.
* `Scan.reads_number`, `Scan.reads_longNumber` — numbers are read whole.
-/

namespace SnapshotDiff

open Numeral (digitsValue)

/-- The code points of the digits. -/
theorem Numeral.toNat_of_isDigit {c : Char} (h : c.isDigit) : 48 ≤ c.toNat ∧ c.toNat ≤ 57 := by
  simpa [Char.isDigit, UInt32.le_iff_toNat_le] using h

/-- A digit is not white space. -/
theorem Text.isBlank_of_isDigit {c : Char} (h : c.isDigit) : isBlank c = false := by
  have hrange := Numeral.toNat_of_isDigit h
  have hwide : ∀ n ∈ wideBlanks, 57 < n := by decide
  have hnot : c.toNat ∉ wideBlanks := fun hmem => absurd (hwide _ hmem) (by omega)
  simp [isBlank, hnot]
  omega

/-! ### Steps of a scan -/

namespace Scan

variable {α β : Type} {p : Scan α} {a : α} {cs ds rest : List Char}

/-- The second step of a scan begins where the first one has stopped. -/
theorem bind_eq {f : α → Scan β} (h : p cs = some (a, rest)) : (p >>= f) cs = f a rest := by
  show (p cs).bind _ = _
  rw [h]
  rfl

/-- To look at what is unread leaves it unread. -/
theorem get_bind (f : List Char → Scan β) (cs : List Char) : (get >>= f) cs = f cs cs := rfl

/-- A scan that reads everything has its value. -/
theorem run?_eq {s : String} (h : p s.toList = some (a, [])) : p.run? s = some a := by
  have hrun : p.run s.toList = some (a, []) := h
  rw [run?, hrun]

theorem mark_cons (c : Char) (cs : List Char) : mark c (c :: cs) = some ((), cs) := by
  simp [mark, one]

theorem one_cons {accepts : Char → Bool} {c : Char} (h : accepts c) (cs : List Char) :
    one accepts (c :: cs) = some ((), cs) := by
  simp [one, h]

/-- Nothing is passed over in front of a character that is not white space. -/
theorem blanks_of_head (h : ∀ c ∈ cs.head?, Text.isBlank c = false) :
    blanks cs = some ((), cs) := by
  have hcs : Text.dropBlanks cs = cs := by
    cases cs with
    | nil => rfl
    | cons c cs => rw [Text.dropBlanks, List.dropWhile_cons_of_neg (by simp [h c rfl])]
  show some ((), Text.dropBlanks cs) = _
  rw [hcs]

theorem blanks_cons {c : Char} (h : Text.isBlank c = false) (cs : List Char) :
    blanks (c :: cs) = some ((), c :: cs) :=
  blanks_of_head fun _ hd => Option.some.inj hd ▸ h

/-- A mark with white space allowed in front of it. -/
theorem blanks_bind_mark {c : Char} {f : Unit → Scan β} (h : Text.isBlank c = false)
    (cs : List Char) : (blanks >>= fun _ => mark c >>= f) (c :: cs) = f () cs :=
  (bind_eq (blanks_cons h cs)).trans (bind_eq (mark_cons c cs))

/-- Digits are read up to the greatest number of them, or up to another character. -/
theorem digits_append {least most : Nat} (hds : ∀ c ∈ ds, c.isDigit) (hleast : least ≤ ds.length)
    (hmost : ds.length = most ∨ ds.length ≤ most ∧ ∀ c ∈ rest.head?, c.isDigit = false) :
    digits least most (ds ++ rest) = some (ds, rest) := by
  have htake : ((ds ++ rest).takeWhile Char.isDigit).take most = ds := by
    rcases hmost with rfl | ⟨hle, hrest⟩
    · rw [List.takeWhile_append_of_pos hds, List.take_left]
    · rw [Numeral.takeWhile_digits_append hds hrest, List.take_of_length_le hle]
  simp only [digits, htake]
  rw [if_neg (Nat.not_lt.mpr hleast), List.drop_left]

theorem number_append {least most : Nat} (hds : ∀ c ∈ ds, c.isDigit) (hleast : least ≤ ds.length)
    (hmost : ds.length = most ∨ ds.length ≤ most ∧ ∀ c ∈ rest.head?, c.isDigit = false) :
    number least most (ds ++ rest) = some (digitsValue ds, rest) := by
  show (digits least most (ds ++ rest)).bind _ = _
  rw [digits_append hds hleast hmost]
  rfl

/-- All digits up to another character are read. -/
theorem longNumber_append (hds : ∀ c ∈ ds, c.isDigit) (hne : ds ≠ [])
    (hrest : ∀ c ∈ rest.head?, c.isDigit = false) :
    longNumber (ds ++ rest) = some (digitsValue ds, rest) := by
  show number 1 (ds ++ rest).length (ds ++ rest) = _
  refine number_append hds (List.length_pos_iff.mpr hne) (Or.inr ⟨?_, hrest⟩)
  rw [List.length_append]
  exact Nat.le_add_right _ _

end Scan

/-! ### What a scan reads -/

/-- Digits, at least `least` and at most `most`, that write the number. -/
structure Numeral.IsNumber (least most n : Nat) (ds : List Char) : Prop where
  digits : ∀ c ∈ ds, c.isDigit
  least : least ≤ ds.length
  most : ds.length ≤ most
  value : digitsValue ds = n

namespace Scan

open Numeral (IsNumber)

variable {α β : Type} {p q : Scan α} {b : β} {cs rest : List Char} {least most : Nat}

/-- The scan reads the texts that write its values, up to the end or a character that it stops
at. -/
structure Reads (p : Scan α) (writes : α → List Char → Prop) (stops : Char → Prop) : Prop where
  sound {a cs rest} : p cs = some (a, rest) → ∃ ds, cs = ds ++ rest ∧ writes a ds
  complete {a ds rest} : writes a ds → (∀ c ∈ rest.head?, stops c) →
    p (ds ++ rest) = some (a, rest)

/-- A scan in two steps has gone through both. -/
theorem exists_of_bind {f : α → Scan β} (h : (p >>= f) cs = some (b, rest)) :
    ∃ a mid, p cs = some (a, mid) ∧ f a mid = some (b, rest) := by
  obtain ⟨⟨a, mid⟩, hp, hf⟩ := Option.bind_eq_some_iff.mp h
  exact ⟨a, mid, hp, hf⟩

/-- A scan in two steps fails if the first one does. -/
theorem bind_none {f : α → Scan β} (h : p cs = none) : (p >>= f) cs = none := by
  show (p cs).bind _ = _
  rw [h]
  rfl

theorem pure_eq_some_iff {a a' : α} :
    (pure a : Scan α) cs = some (a', rest) ↔ a = a' ∧ cs = rest := by
  show some (a, cs) = _ ↔ _
  rw [Option.some.injEq, Prod.mk.injEq]

theorem orElse_eq_some (h : orElse p q cs = some (a, rest)) :
    p cs = some (a, rest) ∨ p cs = none ∧ q cs = some (a, rest) := by
  rw [orElse] at h
  cases hp : p cs with
  | none => exact Or.inr ⟨rfl, by simpa [hp] using h⟩
  | some x => exact Or.inl (by simpa [hp] using h)

theorem one_eq_some {accepts : Char → Bool} {u : Unit} (h : one accepts cs = some (u, rest)) :
    ∃ c, accepts c ∧ cs = c :: rest := by
  cases cs with
  | nil => cases h
  | cons c cs =>
    obtain ⟨hc, hrest⟩ := Option.ite_none_right_eq_some.mp h
    exact ⟨c, hc, by rw [(Prod.mk.inj (Option.some.inj hrest)).2]⟩

theorem mark_eq_some {c : Char} {u : Unit} (h : mark c cs = some (u, rest)) : cs = c :: rest := by
  obtain ⟨d, hd, rfl⟩ := one_eq_some h
  rw [of_decide_eq_true hd]

theorem mark_eq_none {c d : Char} (h : d ≠ c) : mark c (d :: cs) = none := by
  simp [mark, one, h]

theorem run?_eq_some_iff {s : String} {a : α} :
    p.run? s = some a ↔ p s.toList = some (a, []) := by
  constructor
  · intro h
    rw [run?] at h
    split at h
    · next a' hrun => exact Option.some.inj h ▸ hrun
    · cases h
  · exact run?_eq

theorem run?_eq_none_iff {s : String} :
    p.run? s = none ↔ ∀ a, p s.toList ≠ some (a, []) := by
  rw [Option.eq_none_iff_forall_ne_some]
  exact forall_congr' fun a => not_congr run?_eq_some_iff

/-- White space is passed over whole. -/
theorem reads_blanks : Reads blanks (fun _ bs => ∀ c ∈ bs, Text.isBlank c)
    (fun c => Text.isBlank c = false) where
  sound {u cs rest} h := by
    obtain rfl : Text.dropBlanks cs = rest := (Prod.mk.inj (Option.some.inj h)).2
    exact ⟨cs.takeWhile Text.isBlank, (List.takeWhile_append_dropWhile).symm,
      fun c hc => List.mem_takeWhile_imp hc⟩
  complete {u bs rest} hbs hrest := by
    have hdrop : Text.dropBlanks (bs ++ rest) = Text.dropBlanks rest :=
      List.dropWhile_append_of_pos hbs
    exact (congrArg (fun cs => some ((), cs)) hdrop).trans (blanks_of_head hrest)

theorem digits_eq_some {ds : List Char} (h : digits least most cs = some (ds, rest)) :
    cs = ds ++ rest ∧ IsNumber least most (digitsValue ds) ds := by
  simp only [digits] at h
  obtain ⟨hleast, hread⟩ := Option.ite_none_left_eq_some.mp h
  obtain ⟨rfl, rfl⟩ := Prod.mk.inj (Option.some.inj hread)
  have hpre : (cs.takeWhile Char.isDigit).take most <+: cs :=
    (List.take_prefix _ _).trans (List.takeWhile_prefix _)
  refine ⟨(List.prefix_iff_eq_append.mp hpre).symm, ?_, Nat.not_lt.mp hleast,
    List.length_take_le _ _, rfl⟩
  exact fun c hc => List.mem_takeWhile_imp (List.mem_of_mem_take hc)

/-- Digits that are read are the number that they write. -/
theorem number_eq_some {n : Nat} (h : number least most cs = some (n, rest)) :
    ∃ ds, cs = ds ++ rest ∧ IsNumber least most n ds := by
  obtain ⟨⟨ds, mid⟩, hread, hn⟩ := Option.bind_eq_some_iff.mp h
  obtain ⟨rfl, rfl⟩ := Prod.mk.inj (Option.some.inj hn)
  exact ⟨ds, digits_eq_some hread⟩

/-- Numbers are read whole. -/
theorem reads_number (least most : Nat) :
    Reads (number least most) (IsNumber least most) (fun c => c.isDigit = false) where
  sound := number_eq_some
  complete {n ds rest} h hrest := by
    rw [number_append h.digits h.least (Or.inr ⟨h.most, hrest⟩), h.value]

/-- Numbers of a fixed number of digits are read whole in front of any text. -/
theorem number_eq_of_isNumber {n : Nat} {ds : List Char} (h : IsNumber most most n ds)
    (rest : List Char) : number most most (ds ++ rest) = some (n, rest) := by
  rw [number_append h.digits h.least (Or.inl (Nat.le_antisymm h.most h.least)), h.value]

/-- Numbers of any number of digits are read whole. -/
theorem reads_longNumber :
    Reads longNumber (fun n ds => IsNumber 1 ds.length n ds) (fun c => c.isDigit = false) where
  sound {n cs rest} h := by
    obtain ⟨ds, hcs, hds⟩ := number_eq_some h
    exact ⟨ds, hcs, hds.digits, hds.least, Nat.le_refl _, hds.value⟩
  complete {n ds rest} h hrest := by
    rw [longNumber_append h.digits (List.length_pos_iff.mp h.least) hrest, h.value]

end Scan

end SnapshotDiff
