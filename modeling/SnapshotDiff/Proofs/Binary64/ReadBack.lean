import Mathlib.Data.List.TakeWhile
import SnapshotDiff.Json.Text
import SnapshotDiff.Proofs.Binary64.Rounding

/-!
# Written numbers are read back

The text of a floating-point number shows the digits of a decimal in one of several layouts.  Each
layout is a numeral with the value of the decimal, and the decimal is read as the number.  So two
numbers with one text are the same number, the two zeros included, whose signs are written.

## Main results

* `Binary64.ofUnsigned?_layOut` — the numeral of a decimal has the value of the decimal.
* `Binary64.value?_text` — **a written number is read back.**
* `Binary64.text_inj` — different numbers have different texts.
-/

namespace SnapshotDiff

namespace Numeral

variable {ds w f r : List Char} {x : Option Int}

/-! ### Digits -/

theorem digitsValue_toDigits (n : Nat) : digitsValue (Nat.toDigits 10 n) = n :=
  Nat.ofDigitChars_ten_toDigits

theorem digitsValue_append_zeros (ds : List Char) (k : Nat) :
    digitsValue (ds ++ List.replicate k '0') = digitsValue ds * 10 ^ k := by
  rw [digitsValue, Nat.ofDigitChars_append, Nat.ofDigitChars_replicate_zero, Nat.mul_comm]
  rfl

theorem digitsValue_zeros_append (ds : List Char) (k : Nat) :
    digitsValue (List.replicate k '0' ++ ds) = digitsValue ds := by
  rw [digitsValue, Nat.ofDigitChars_append, Nat.ofDigitChars_replicate_zero, Nat.mul_zero]
  rfl

theorem takeWhile_digits_append (hds : ∀ c ∈ ds, c.isDigit)
    (hr : ∀ c ∈ r.head?, c.isDigit = false) : (ds ++ r).takeWhile Char.isDigit = ds := by
  rw [List.takeWhile_append_of_pos hds]
  cases r with
  | nil => simp
  | cons c r => rw [List.takeWhile_cons_of_neg (by simp [hr c rfl]), List.append_nil]

theorem dropWhile_digits_append (hds : ∀ c ∈ ds, c.isDigit)
    (hr : ∀ c ∈ r.head?, c.isDigit = false) : (ds ++ r).dropWhile Char.isDigit = r := by
  rw [List.dropWhile_append_of_pos hds]
  cases r with
  | nil => rfl
  | cons c r => rw [List.dropWhile_cons_of_neg (by simp [hr c rfl])]

/-! ### Parts -/

theorem exponent?_sign (e : Int) :
    exponent? ('e' :: (if e < 0 then '-' else '+') :: Nat.toDigits 10 e.natAbs)
      = some (some e) := by
  have hdigits : ((Nat.toDigits 10 e.natAbs).isEmpty
      || !(Nat.toDigits 10 e.natAbs).all Char.isDigit) = false := by
    rw [Bool.or_eq_false_iff, Bool.not_eq_false', List.all_eq_true]
    refine ⟨?_, fun c hc => Nat.isDigit_of_mem_toDigits (by decide) (by decide) hc⟩
    simp
  split
  · next he =>
    simp only [exponent?, exponentDigits?, hdigits, digitsValue_toDigits]
    simp [abs_of_neg he]
  · next he =>
    simp only [exponent?, exponentDigits?, hdigits, digitsValue_toDigits]
    simpa using Int.le_of_not_gt he

/-- A whole part is one digit or begins with another digit than zero. -/
def IsWholePart (w : List Char) : Prop :=
  w ≠ [] ∧ (∀ c ∈ w, c.isDigit) ∧ (w.head? = some '0' → w.length = 1)

theorem IsWholePart.check (h : IsWholePart w) :
    (w.isEmpty || (w.head? == some '0' && w.length != 1)) = false := by
  obtain ⟨hne, -, hlead⟩ := h
  rw [Bool.or_eq_false_iff, Bool.and_eq_false_iff]
  refine ⟨by simpa using hne, ?_⟩
  by_cases hzero : w.head? = some '0'
  · exact Or.inr (by simpa using hlead hzero)
  · exact Or.inl (by simpa using hzero)

/-- A whole part and a fraction are read as such. -/
theorem ofUnsigned?_pointed (negative : Bool) (hw : IsWholePart w) (hne : f ≠ [])
    (hf : ∀ c ∈ f, c.isDigit) (hr : ∀ c ∈ r.head?, c.isDigit = false) (hx : exponent? r = some x) :
    ofUnsigned? negative (w ++ '.' :: (f ++ r)) = some ⟨negative, w, some f, x⟩ := by
  have hpoint : ∀ c ∈ ('.' :: (f ++ r)).head?, c.isDigit = false := by simp
  have hfraction : fraction? ('.' :: (f ++ r)) = some (some f, r) := by
    rw [fraction?, takeWhile_digits_append hf hr, dropWhile_digits_append hf hr,
      if_neg (by simpa using hne)]
  unfold ofUnsigned?
  rw [takeWhile_digits_append hw.2.1 hpoint, dropWhile_digits_append hw.2.1 hpoint]
  dsimp only
  rw [hw.check, hfraction]
  simp [hx]

/-- A whole part is read as such if an exponent or nothing follows it. -/
theorem ofUnsigned?_bare (negative : Bool) (hw : IsWholePart w) (hr : ∀ c ∈ r.head?, c = 'e')
    (hx : exponent? r = some x) : ofUnsigned? negative (w ++ r) = some ⟨negative, w, none, x⟩ := by
  have hmark : ∀ c ∈ r.head?, c.isDigit = false := fun c hc => hr c hc ▸ rfl
  have hfraction : fraction? r = some (none, r) := by
    cases r with
    | nil => rfl
    | cons c r =>
      obtain rfl := hr c rfl
      rfl
  unfold ofUnsigned?
  rw [takeWhile_digits_append hw.2.1 hmark, dropWhile_digits_append hw.2.1 hmark]
  dsimp only
  rw [hw.check, hfraction]
  simp [hx]

theorem value?_of_not_isWhole {n : Numeral} (h : n.isWhole = false) :
    n.value? = (Binary64.ofDecimal? n.negative n.significand n.scale).map .float := by
  simp [value?, h]

end Numeral

namespace Binary64

open Numeral

variable {negative : Bool} {ds : List Char} {e : Int}

/-! ### Digits of a decimal -/

/-- The digits of a number are its significant digits and zeros. -/
theorem exists_toDigits_eq (n : Nat) :
    ∃ k, Nat.toDigits 10 n = significantDigits n ++ List.replicate k '0' := by
  refine ⟨((Nat.toDigits 10 n).reverse.takeWhile (· = '0')).length, ?_⟩
  have hzeros : (Nat.toDigits 10 n).reverse.takeWhile (· = '0') = List.replicate
      ((Nat.toDigits 10 n).reverse.takeWhile (· = '0')).length '0' := by
    refine List.eq_replicate_iff.mpr ⟨rfl, fun c hc => ?_⟩
    simpa using List.mem_takeWhile_imp (p := fun c => decide (c = '0')) hc
  have hsplit := congrArg List.reverse
    (List.takeWhile_append_dropWhile (p := (· = '0')) (l := (Nat.toDigits 10 n).reverse))
  rw [List.reverse_append, List.reverse_reverse, hzeros, List.reverse_replicate] at hsplit
  exact hsplit.symm

theorem head?_toDigits_ne {n : Nat} (hn : 0 < n) : (Nat.toDigits 10 n).head? ≠ some '0' := by
  induction n using Nat.strongRecOn with
  | ind n ih =>
    rw [Nat.toDigits_eq_if (by decide)]
    split
    · next hlt =>
      have hdigit : ∀ m : Fin 10, m.val ≠ 0 → Nat.digitChar m.val ≠ '0' := by decide
      have hne : (⟨n, hlt⟩ : Fin 10).val ≠ 0 := Nat.ne_of_gt hn
      simpa using hdigit ⟨n, hlt⟩ hne
    · rw [List.head?_append_of_ne_nil _ Nat.toDigits_ne_nil]
      exact ih (n / 10) (by omega) (by omega)

/-- The significant digits of a number that is not zero are digits that begin with another one than
zero, and the number is their value with zeros. -/
theorem significantDigits_spec {n : Nat} (hn : 0 < n) :
    significantDigits n ≠ [] ∧ (∀ c ∈ significantDigits n, c.isDigit)
      ∧ (significantDigits n).head? ≠ some '0' ∧ ∃ k,
        n = digitsValue (significantDigits n) * 10 ^ k
          ∧ (Nat.toDigits 10 n).length = (significantDigits n).length + k := by
  obtain ⟨k, hk⟩ := exists_toDigits_eq n
  have hvalue := congrArg digitsValue hk
  rw [digitsValue_toDigits, digitsValue_append_zeros] at hvalue
  have hne : significantDigits n ≠ [] := by
    intro hnil
    rw [hnil] at hvalue
    have hzero : digitsValue [] = 0 := rfl
    rw [hzero, Nat.zero_mul] at hvalue
    omega
  refine ⟨hne, fun c hc => ?_, fun hhead => head?_toDigits_ne hn ?_, k, hvalue, ?_⟩
  · refine Nat.isDigit_of_mem_toDigits (b := 10) (n := n) (by decide) (by decide) ?_
    rw [hk]
    exact List.mem_append_left _ hc
  · rw [hk, List.head?_append_of_ne_nil _ hne, hhead]
  · rw [hk, List.length_append, List.length_replicate]

/-! ### Layouts -/

/-- The numeral is that of the digits, the first of which stands for `10 ^ e`, with zeros behind
them. -/
def Shows (negative : Bool) (ds : List Char) (e : Int) (n : Numeral) : Prop :=
  n.negative = negative ∧ n.isWhole = false
    ∧ ∃ j : Nat, n.significand = digitsValue ds * 10 ^ j ∧ n.scale = e + 1 - ds.length - j

theorem isWholePart_append (hne : ds ≠ []) (hds : ∀ c ∈ ds, c.isDigit)
    (hlead : ds.head? ≠ some '0') {zs : List Char} (hzs : ∀ c ∈ zs, c.isDigit) :
    IsWholePart (ds ++ zs) := by
  refine ⟨by simp [hne], fun c hc => ?_, fun hhead => ?_⟩
  · exact (List.mem_append.mp hc).elim (hds c) (hzs c)
  · rw [List.head?_append_of_ne_nil _ hne] at hhead
    exact absurd hhead hlead

theorem isDigit_of_mem_zeros {k : Nat} : ∀ c ∈ zeros k, c.isDigit := by
  intro c hc
  rw [List.eq_of_mem_replicate hc]
  decide

theorem isWholePart_take (hne : ds ≠ []) (hds : ∀ c ∈ ds, c.isDigit)
    (hlead : ds.head? ≠ some '0') (k : Nat) : IsWholePart (ds.take (k + 1)) := by
  cases ds with
  | nil => exact absurd rfl hne
  | cons c ds =>
    refine ⟨by simp, fun d hd => hds d (List.mem_of_mem_take hd), fun hhead => ?_⟩
    exact absurd hhead hlead

/-- Digits with a decimal point. -/
theorem ofUnsigned?_positional (hne : ds ≠ []) (hds : ∀ c ∈ ds, c.isDigit)
    (hlead : ds.head? ≠ some '0') :
    ∃ n, ofUnsigned? negative (positional true ds e) = some n ∧ Shows negative ds e n := by
  unfold positional
  dsimp only
  split
  · next he =>
    -- zeros stand in front of the digits, on both sides of the point
    have hread := ofUnsigned?_pointed negative (w := ['0'])
      (f := zeros (e.natAbs - 1) ++ ds) (r := []) ⟨by simp, by simp, by simp⟩ (by simp [hne])
      (fun c hc => (List.mem_append.mp hc).elim (isDigit_of_mem_zeros c) (hds c)) (by simp) rfl
    rw [List.append_nil] at hread
    refine ⟨_, hread, rfl, rfl, 0, ?_, ?_⟩
    · have hzero : (['0'] : List Char) = List.replicate 1 '0' := rfl
      rw [significand, Option.getD_some, zeros, hzero, digitsValue_zeros_append,
        digitsValue_zeros_append, pow_zero, Nat.mul_one]
    · simp only [scale, Option.getD_none, Option.getD_some, List.length_append, zeros,
        List.length_replicate]
      omega
  · next he =>
    split
    · next hlen =>
      -- zeros stand behind the digits, one of them behind the point
      have hread := ofUnsigned?_pointed negative
        (w := ds ++ zeros (e.toNat + 1 - ds.length)) (f := ['0']) (r := [])
        (isWholePart_append hne hds hlead isDigit_of_mem_zeros) (by simp) (by simp) (by simp) rfl
      refine ⟨_, hread, rfl, rfl, e.toNat + 1 - ds.length + 1, ?_, ?_⟩
      · have hzero : (['0'] : List Char) = List.replicate 1 '0' := rfl
        rw [significand, Option.getD_some, hzero, digitsValue_append_zeros, zeros,
          digitsValue_append_zeros, Nat.pow_one, Nat.pow_succ, Nat.mul_assoc]
      · simp only [scale, Option.getD_none, Option.getD_some, List.length_singleton]
        omega
    · next hlen =>
      have hread := ofUnsigned?_pointed negative (w := ds.take (e.toNat + 1))
        (f := ds.drop (e.toNat + 1)) (r := []) (isWholePart_take hne hds hlead _)
        (by simpa using hlen) (fun c hc => hds c (List.mem_of_mem_drop hc)) (by simp) rfl
      rw [List.append_nil] at hread
      refine ⟨_, hread, rfl, rfl, 0, ?_, ?_⟩
      · rw [significand, Option.getD_some, List.take_append_drop, pow_zero, Nat.mul_one]
      · simp only [scale, Option.getD_none, Option.getD_some, List.length_drop]
        omega

/-- Digits with an exponent. -/
theorem ofUnsigned?_scientific (hne : ds ≠ []) (hds : ∀ c ∈ ds, c.isDigit)
    (hlead : ds.head? ≠ some '0') :
    ∃ n, ofUnsigned? negative (scientific ds e) = some n ∧ Shows negative ds e n := by
  have hwhole := isWholePart_take hne hds hlead 0
  have hexponent := exponent?_sign e
  have hlength : 0 < ds.length := List.length_pos_iff.mpr hne
  unfold scientific
  split
  · next hlen =>
    have hread := ofUnsigned?_bare negative hwhole (by simp) hexponent
    rw [List.append_nil]
    refine ⟨_, hread, rfl, rfl, 0, ?_, ?_⟩
    · rw [significand, Option.getD_none, List.append_nil, List.take_of_length_le hlen, pow_zero,
        Nat.mul_one]
    · simp only [scale, Option.getD_none, Option.getD_some, List.length_nil]
      omega
  · next hlen =>
    have hrest : ds.drop 1 ≠ [] := fun h => hlen (List.drop_eq_nil_iff.mp h)
    have hread := ofUnsigned?_pointed negative (f := ds.drop 1) hwhole hrest
      (fun c hc => hds c (List.mem_of_mem_drop hc))
      (r := 'e' :: (if e < 0 then '-' else '+') :: Nat.toDigits 10 e.natAbs) (by simp) hexponent
    rw [List.append_assoc, List.cons_append]
    refine ⟨_, hread, rfl, rfl, 0, ?_, ?_⟩
    · rw [significand, Option.getD_some, List.take_append_drop, pow_zero, Nat.mul_one]
    · simp only [scale, Option.getD_some, List.length_drop]
      omega

/-- **The numeral of a decimal has the value of the decimal.** -/
theorem ofUnsigned?_layOut (negative : Bool) {d : Decimal} (hd : 0 < d.significand) :
    ∃ n, ofUnsigned? negative (layOut Json.numberStyle d) = some n ∧ n.negative = negative
      ∧ n.isWhole = false
      ∧ ofDecimal? negative n.significand n.scale
        = ofDecimal? negative d.significand d.exponent := by
  obtain ⟨hne, hds, hlead, k, hvalue, hlength⟩ := significantDigits_spec hd
  -- both layouts show the digits, and they differ in the zeros behind them only
  have hlaid : ∃ n, ofUnsigned? negative (layOut Json.numberStyle d) = some n
      ∧ Shows negative (significantDigits d.significand)
        (d.exponent + (Nat.toDigits 10 d.significand).length - 1) n := by
    unfold layOut
    dsimp only
    split
    · exact ofUnsigned?_positional hne hds hlead
    · exact ofUnsigned?_scientific hne hds hlead
  obtain ⟨n, hread, hnegative, hwhole, j, hsignificand, hscale⟩ := hlaid
  refine ⟨n, hread, hnegative, hwhole, ?_⟩
  have hscale' : n.scale = d.exponent + k - j := by
    rw [hscale, hlength]
    push_cast
    omega
  have hexponent : d.exponent = d.exponent + k - k := by omega
  rw [hsignificand, hscale', ofDecimal?_mul_pow]
  conv_rhs => rw [hvalue, hexponent]
  rw [ofDecimal?_mul_pow]

/-! ### Texts -/

/-- A numeral without a sign does not begin with one. -/
theorem ne_minus_of_ofUnsigned? {cs : List Char} {n : Numeral}
    (h : ofUnsigned? negative cs = some n) : cs.head? ≠ some '-' := by
  intro hhead
  cases cs with
  | nil => simp at hhead
  | cons c cs =>
    obtain rfl := Option.some.inj hhead
    simp [ofUnsigned?] at h

/-- The digits of a text are a numeral whose value is the number. -/
theorem exists_numeral_text (x : Binary64) :
    ∃ n, Numeral.ofChars? (x.text Json.numberStyle) = some n ∧ n.isWhole = false
      ∧ ofDecimal? n.negative n.significand n.scale = some x := by
  -- without its sign the text is that of a zero, or the layout of a decimal that reads back
  have hunsigned : ∃ n, ofUnsigned? x.negative (if x.rank.val = 0
        then positional Json.numberStyle.pointed ['0'] 0
        else layOut Json.numberStyle (shortest Json.numberStyle.tie x)) = some n
      ∧ n.negative = x.negative ∧ n.isWhole = false
      ∧ ofDecimal? x.negative n.significand n.scale = some x := by
    split
    · next hzero =>
      refine ⟨⟨x.negative, ['0'], some ['0'], none⟩, rfl, rfl, rfl, ?_⟩
      have hx : x = zero x.negative := by
        obtain ⟨negative, rank⟩ := x
        exact congrArg (Binary64.mk negative) (Fin.ext hzero)
      rw [hx]
      rfl
    · next hzero =>
      have hreads := readsAs_shortest Json.numberStyle.tie hzero
      obtain ⟨n, hread, hnegative, hwhole, hvalue⟩ :=
        ofUnsigned?_layOut x.negative (significand_pos_of_readsAs hzero hreads)
      refine ⟨n, hread, hnegative, hwhole, ?_⟩
      rw [hvalue]
      exact eq_of_beq hreads
  obtain ⟨n, hread, hnegative, hwhole, hvalue⟩ := hunsigned
  refine ⟨n, ?_, hwhole, hnegative ▸ hvalue⟩
  unfold text
  dsimp only
  split
  · next hneg => rw [Numeral.ofChars?, ← hneg, hread]
  · next hneg =>
    rw [Bool.not_eq_true] at hneg
    rw [hneg] at hread
    have hhead := ne_minus_of_ofUnsigned? hread
    rw [Numeral.ofChars?]
    · exact hread
    · intro cs hcs
      rw [hcs] at hhead
      exact hhead rfl

/-- **A written number is read back.** -/
theorem value?_text (x : Binary64) :
    (Numeral.ofChars? (x.text Json.numberStyle)).bind Numeral.value? = some (.float x) := by
  obtain ⟨n, hread, hwhole, hvalue⟩ := exists_numeral_text x
  rw [hread, Option.bind_some, value?_of_not_isWhole hwhole, hvalue, Option.map_some]

/-- **Different numbers have different texts.** -/
theorem text_inj {x y : Binary64} (h : x.text Json.numberStyle = y.text Json.numberStyle) :
    x = y := by
  have hx := value?_text x
  rw [h, value?_text y] at hx
  exact (Json.float.inj (Option.some.inj hx)).symm

end Binary64

end SnapshotDiff
