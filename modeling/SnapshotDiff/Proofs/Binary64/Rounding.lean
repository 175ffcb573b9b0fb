import Mathlib.Tactic.Positivity
import Mathlib.Tactic.Ring
import SnapshotDiff.Binary64.Shortest

/-!
# Decimals and the numbers nearest to them

Which number is nearest to a decimal depends on the value of the decimal only, not on the zeros at
its end.  The exact value of a number, which has its last digit at `10 ^ -1074` or before, is read
as that number, and so is the decimal that is chosen to be written for it.

## Main results

* `Binary64.ofDecimal?_mul_pow` — zeros at the end of a decimal make no difference.
* `Binary64.readsAs_exact` — the exact value of a number is read as the number.
* `Binary64.readsAs_shortest` — the decimal that is written for a number is read as the number.
-/

namespace SnapshotDiff

namespace Binary64

/-! ### Quotients -/

theorem roundHalfEven_mul (a b : Nat) {c : Nat} (hc : 0 < c) :
    roundHalfEven (a * c) (b * c) = roundHalfEven a b := by
  have hlt : ∀ r s : Nat, r * c < s * c ↔ r < s := fun r s => Nat.mul_lt_mul_right hc
  simp only [roundHalfEven, Nat.mul_div_mul_right _ _ hc, Nat.mul_mod_mul_right, ← Nat.mul_assoc,
    hlt]

theorem roundHalfEven_of_mul_eq {n d k : Nat} (hd : 0 < d) (h : n = k * d) :
    roundHalfEven n d = k := by
  rw [roundHalfEven, h, Nat.mul_mod_left, Nat.mul_div_cancel _ hd]
  exact if_pos (by omega)

/-- A quotient may be reduced. -/
theorem nearestRank_mul (a b : Nat) {c : Nat} (hc : 0 < c) :
    nearestRank (a * c) (b * c) = nearestRank a b := by
  have hnum : a * c * unitsInOne = a * unitsInOne * c := by ring
  have hden : ∀ d, b * c * Nat.pow 2 d = b * Nat.pow 2 d * c := fun d => by ring
  simp only [nearestRank, hnum, Nat.mul_div_mul_right _ _ hc, hden, roundHalfEven_mul _ _ hc]

theorem ofRatio?_mul (negative : Bool) (a b : Nat) {c : Nat} (hc : 0 < c) :
    ofRatio? negative (a * c) (b * c) = ofRatio? negative a b := by
  simp only [ofRatio?, nearestRank_mul a b hc]

/-! ### Decimals -/

theorem length_toDigits_mul_ten {m : Nat} (hm : 0 < m) :
    (Nat.toDigits 10 (m * 10)).length = (Nat.toDigits 10 m).length + 1 := by
  have happend :=
    Nat.toDigits_append_toDigits (b := 10) (n := m) (d := 0) (by decide) hm (by decide)
  rw [Nat.add_zero, Nat.mul_comm] at happend
  rw [← happend, List.length_append]
  rfl

theorem ofDecimal?_mul_ten (negative : Bool) (m : Nat) (e : Int) :
    ofDecimal? negative (m * 10) (e - 1) = ofDecimal? negative m e := by
  by_cases hm : m = 0
  · simp [ofDecimal?, hm]
  · have htop : e - 1 + ((Nat.toDigits 10 (m * 10)).length : Int)
        = e + (Nat.toDigits 10 m).length := by
      rw [length_toDigits_mul_ten (Nat.pos_of_ne_zero hm)]
      omega
    have hne : m * 10 ≠ 0 := by omega
    simp only [ofDecimal?, htop, hm, hne, false_or]
    -- the two quotients are one, on whichever side of the bar the power of ten stands
    have hquotient : (if e - 1 < 0 then
          ofRatio? negative (m * 10) (Nat.pow 10 (e - 1).natAbs)
        else ofRatio? negative (m * 10 * Nat.pow 10 (e - 1).natAbs) 1)
        = if e < 0 then ofRatio? negative m (Nat.pow 10 e.natAbs)
          else ofRatio? negative (m * Nat.pow 10 e.natAbs) 1 := by
      by_cases he : e < 0
      · have hpow : Nat.pow 10 (e - 1).natAbs = Nat.pow 10 e.natAbs * 10 := by
          rw [show (e - 1).natAbs = e.natAbs + 1 by omega]
          rfl
        rw [if_pos he, if_pos (by omega), hpow, ofRatio?_mul _ _ _ (by decide)]
      · rw [if_neg he]
        by_cases hzero : e = 0
        · have hup : Nat.pow 10 (e - 1).natAbs = 1 * 10 := by rw [hzero]; rfl
          have hdown : m * Nat.pow 10 e.natAbs = m := by rw [hzero]; exact Nat.mul_one m
          rw [if_pos (by omega), hup, hdown, ofRatio?_mul _ _ _ (by decide)]
        · have hpow : m * Nat.pow 10 e.natAbs = m * 10 * Nat.pow 10 (e - 1).natAbs := by
            rw [show e.natAbs = (e - 1).natAbs + 1 by omega]
            show m * (Nat.pow 10 (e - 1).natAbs * 10) = _
            ring
          rw [if_neg (by omega), hpow]
    rw [hquotient]

/-- **Zeros at the end of a decimal make no difference.** -/
theorem ofDecimal?_mul_pow (negative : Bool) (m k : Nat) (e : Int) :
    ofDecimal? negative (m * 10 ^ k) (e - k) = ofDecimal? negative m e := by
  induction k with
  | zero => simp
  | succ k ih =>
    rw [← ih, ← ofDecimal?_mul_ten negative (m * 10 ^ k)]
    congr 1
    · ring
    · push_cast
      ring

/-! ### The exact value -/

/-- The rank of a whole number of units. -/
theorem nearestRank_of_units {a b n : Nat} (hb : 0 < b) (h : a * unitsInOne = n * b) :
    nearestRank a b = (n.log2 - 52) * Nat.pow 2 52 + roundHalfEven n (Nat.pow 2 (n.log2 - 52)) := by
  have hround := fun d => roundHalfEven_mul n (Nat.pow 2 d) hb
  simp only [nearestRank, h, Nat.mul_div_cancel _ hb, Nat.mul_comm b, hround]

theorem log2_magnitude {q r : Nat} (hr : r < 2 ^ 52) : ((2 ^ 52 + r) * 2 ^ q).log2 = 52 + q := by
  have hpos : (2 ^ 52 + r) * 2 ^ q ≠ 0 :=
    (Nat.mul_pos (Nat.add_pos_left (Nat.pow_pos (by decide)) r) (Nat.pow_pos (by decide))).ne'
  rw [Nat.log2_eq_iff hpos]
  constructor
  · rw [pow_add]
    exact Nat.mul_le_mul_right _ (by omega)
  · rw [show 52 + q + 1 = 53 + q by omega, pow_add 2 53]
    exact Nat.mul_lt_mul_of_pos_right (by omega) (by positivity)

/-- The magnitude of a rank has that rank. -/
theorem rank_of_magnitude (x : Binary64) :
    (x.magnitude.log2 - 52) * Nat.pow 2 52
      + roundHalfEven x.magnitude (Nat.pow 2 (x.magnitude.log2 - 52)) = x.rank.val := by
  show (x.magnitude.log2 - 52) * 2 ^ 52
      + roundHalfEven x.magnitude (2 ^ (x.magnitude.log2 - 52)) = x.rank.val
  have hmagnitude : x.magnitude = if x.rank.val < 2 ^ 52 then x.rank.val
      else (2 ^ 52 + x.rank.val % 2 ^ 52) * 2 ^ (x.rank.val / 2 ^ 52 - 1) := rfl
  split at hmagnitude
  · next hlt =>
    -- the first magnitudes are one unit apart
    have hlog : x.magnitude.log2 - 52 = 0 := by
      by_cases hzero : x.magnitude = 0
      · rw [hzero]
        rfl
      · have hlt' : x.magnitude.log2 < 52 := (Nat.log2_lt hzero).mpr (hmagnitude ▸ hlt)
        omega
    rw [hlog, roundHalfEven_of_mul_eq (k := x.rank.val) (by decide) (by rw [hmagnitude]; ring)]
    omega
  · next hge =>
    have hlog : x.magnitude.log2 - 52 = x.rank.val / 2 ^ 52 - 1 := by
      rw [hmagnitude, log2_magnitude (Nat.mod_lt _ (by decide))]
      omega
    rw [hlog, roundHalfEven_of_mul_eq (by positivity) hmagnitude]
    omega

theorem tenths_mul_unitsInOne (x : Binary64) :
    x.tenths * unitsInOne = x.magnitude * Nat.pow 10 1074 := by
  unfold tenths unitsInOne
  generalize 1074 = n
  rw [Nat.mul_assoc]
  exact congrArg _ (Nat.mul_pow 5 2 n).symm

theorem nearestRank_tenths (x : Binary64) :
    nearestRank x.tenths (Nat.pow 10 1074) = x.rank.val := by
  have hpos : ∀ n, 0 < Nat.pow 10 n := fun n => Nat.pow_pos (by decide)
  rw [nearestRank_of_units (hpos 1074) (tenths_mul_unitsInOne x), rank_of_magnitude]

theorem magnitude_pos {x : Binary64} (hx : x.rank.val ≠ 0) : 0 < x.magnitude := by
  unfold magnitude
  split
  · omega
  · exact Nat.mul_pos (Nat.add_pos_left (Nat.pow_pos (by decide)) _) (Nat.pow_pos (by decide))

theorem tenths_pos {x : Binary64} (hx : x.rank.val ≠ 0) : 0 < x.tenths := by
  unfold tenths
  generalize 1074 = n
  exact Nat.mul_pos (magnitude_pos hx) (Nat.pow_pos (by decide))

theorem magnitude_lt (x : Binary64) {q : Nat} (hq : x.rank.val / 2 ^ 52 ≤ q) :
    x.magnitude < Nat.pow 2 53 * Nat.pow 2 q := by
  show x.magnitude < 2 ^ 53 * 2 ^ q
  have hmagnitude : x.magnitude = if x.rank.val < 2 ^ 52 then x.rank.val
      else (2 ^ 52 + x.rank.val % 2 ^ 52) * 2 ^ (x.rank.val / 2 ^ 52 - 1) := rfl
  have hpow : 0 < 2 ^ q := by positivity
  split at hmagnitude
  · have hle : 2 ^ 53 * 1 ≤ 2 ^ 53 * 2 ^ q := Nat.mul_le_mul_left _ hpow
    omega
  · have hmod : x.rank.val % 2 ^ 52 < 2 ^ 52 := Nat.mod_lt _ (by decide)
    calc x.magnitude
        < 2 ^ 53 * 2 ^ (x.rank.val / 2 ^ 52 - 1) := by
          rw [hmagnitude]
          exact Nat.mul_lt_mul_of_pos_right (by omega) (by positivity)
      _ ≤ 2 ^ 53 * 2 ^ q :=
          Nat.mul_le_mul_left _ (Nat.pow_le_pow_right (by decide) (by omega))

theorem ofRatio?_of_nearestRank {x : Binary64} {a b : Nat} (h : nearestRank a b = x.rank.val) :
    ofRatio? x.negative a b = some x := by
  rw [ofRatio?, dif_pos (h ▸ x.rank.isLt)]
  simp only [h]

/-- The number of digits of a product, from bounds for its factors. -/
theorem length_toDigits_mul {m a p j k : Nat} (hj : 0 < j) (hk : 0 < k) (hm : 0 < m) (ha : m < a)
    (hp : 0 < p) (hlow : Nat.pow 10 j ≤ p) (hhigh : a * p ≤ Nat.pow 10 k) :
    j < (Nat.toDigits 10 (m * p)).length ∧ (Nat.toDigits 10 (m * p)).length ≤ k := by
  constructor
  · rw [← Nat.not_le, Nat.length_toDigits_le_iff (by decide) hj, Nat.not_lt]
    exact hlow.trans (Nat.le_mul_of_pos_left p hm)
  · rw [Nat.length_toDigits_le_iff (by decide) hk]
    exact (Nat.mul_lt_mul_of_pos_right ha hp).trans_le hhigh

/-- The value of a number is neither below `10 ^ -330` nor above `10 ^ 310`. -/
theorem length_tenths {x : Binary64} (hx : x.rank.val ≠ 0) :
    743 < (Nat.toDigits 10 x.tenths).length ∧ (Nat.toDigits 10 x.tenths).length ≤ 1384 := by
  have hrank : x.rank.val / 2 ^ 52 ≤ 2046 := by
    have hlt : x.rank.val < 2047 * 2 ^ 52 := x.rank.isLt
    omega
  have hlt := magnitude_lt x hrank
  have hplaces : 0 < 743 ∧ 0 < 1384 := by decide
  have hbounds : 0 < Nat.pow 5 1074 ∧ Nat.pow 10 743 ≤ Nat.pow 5 1074
      ∧ Nat.pow 2 53 * Nat.pow 2 2046 * Nat.pow 5 1074 ≤ Nat.pow 10 1384 := by decide +kernel
  unfold tenths
  -- the powers are numbers of hundreds of digits, which are better not looked into
  generalize Nat.pow 5 1074 = p at hbounds ⊢
  generalize 2046 = q at hbounds hlt
  generalize 743 = j at hplaces hbounds ⊢
  generalize 1384 = k at hplaces hbounds ⊢
  obtain ⟨hp, hlow, hhigh⟩ := hbounds
  exact length_toDigits_mul hplaces.1 hplaces.2 (magnitude_pos hx) hlt hp hlow hhigh

/-- **The exact value of a number is read as the number.** -/
theorem readsAs_exact {x : Binary64} (hx : x.rank.val ≠ 0) : x.readsAs ⟨x.tenths, -1074⟩ := by
  obtain ⟨hshort, hlong⟩ := length_tenths hx
  have hpos := tenths_pos hx
  have hrank := nearestRank_tenths x
  have hexponent : (-1074 : Int).natAbs = 1074 := rfl
  have hread : ofDecimal? x.negative x.tenths (-1074) = some x := by
    rw [ofDecimal?, if_neg (by omega), if_neg (by omega), if_pos (by decide), hexponent]
    generalize 1074 = n at hrank ⊢
    exact ofRatio?_of_nearestRank hrank
  rw [readsAs, hread, beq_self_eq_true]

/-- **The decimal that is written for a number is read as the number.** -/
theorem readsAs_shortest (tie : Tie) {x : Binary64} (hx : x.rank.val ≠ 0) :
    x.readsAs (shortest tie x) := by
  have hfrom : ∀ tries n, x.readsAs (shortestFrom tie x n tries) := by
    intro tries
    induction tries with
    | zero => exact fun n => readsAs_exact hx
    | succ tries ih =>
      intro n
      rw [shortestFrom]
      cases hd : withDigits? tie x n with
      | none => exact ih (n + 1)
      | some d => exact readsAs_of_withDigits? hd
  exact hfrom 17 1

/-- A decimal that is read as another number than zero has a digit that is not zero. -/
theorem significand_pos_of_readsAs {x : Binary64} (hx : x.rank.val ≠ 0) {d : Decimal}
    (h : x.readsAs d) : 0 < d.significand := by
  refine Nat.pos_of_ne_zero fun hzero => hx ?_
  rw [readsAs, beq_iff_eq, ofDecimal?, if_pos (Or.inl hzero)] at h
  rw [← Option.some.inj h]
  rfl

end Binary64

end SnapshotDiff
