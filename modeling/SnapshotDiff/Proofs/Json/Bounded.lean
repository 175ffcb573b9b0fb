import SnapshotDiff.Proofs.Json.Canonical

/-!
# Integers of 64 bits

The integers that occur in snapshots have 64 bits, with a sign or without one.  Each of them has
a floating-point number nearest to it.

## Main definitions

* `Json.isWord` — an integer has 64 bits.
* `Json.Bounded` — every integer in a value has.
* `Json.IsValid` — the values that occur.

## Main results

* `Binary64.exists_ofInt?` — an integer of 64 bits is not too large for a floating-point number.
* `Json.hereditary_bounded` — being bounded passes to items and members.
-/

namespace SnapshotDiff

namespace Json

/-- The integer has 64 bits, one of which may be a sign. -/
def isWord (n : Int) : Bool := -9223372036854775808 ≤ n && n ≤ 18446744073709551615

mutual

/-- Every integer inside the value has 64 bits. -/
def Bounded : Json → Prop
  | int n => isWord n
  | arr items => BoundedItems items
  | obj ms => BoundedMembers ms
  | _ => True

/-- Every item is bounded. -/
def BoundedItems : List Json → Prop
  | [] => True
  | v :: vs => Bounded v ∧ BoundedItems vs

/-- Every member is bounded. -/
def BoundedMembers : List (String × Json) → Prop
  | [] => True
  | (_, v) :: ms => Bounded v ∧ BoundedMembers ms

end

theorem bounded_arr_iff {vs : List Json} : Bounded (arr vs) ↔ ∀ v ∈ vs, Bounded v := by
  rw [Bounded]
  induction vs with
  | nil => simp [BoundedItems]
  | cons v vs ih => simp [BoundedItems, ih]

theorem bounded_obj_iff {ms : Table Json} : Bounded (obj ms) ↔ ∀ m ∈ ms, Bounded m.2 := by
  rw [Bounded]
  induction ms with
  | nil => simp [BoundedMembers]
  | cons m ms ih => simp [BoundedMembers, ih]

theorem hereditary_bounded : Hereditary Bounded where
  item h hv := bounded_arr_iff.mp h _ hv
  member h hv := bounded_obj_iff.mp h _ (Table.mem_of_get?_eq_some hv)

/-- The value is one that occurs: its objects have ascending keys, and its integers 64 bits. -/
def IsValid (v : Json) : Prop := Canonical v ∧ Bounded v

end Json

namespace Binary64

/-! ### The number nearest to an integer -/

theorem roundHalfEven_le (a b : Nat) : roundHalfEven a b ≤ a / b + 1 := by
  unfold roundHalfEven
  dsimp only
  split
  · omega
  · split
    · omega
    · split <;> omega

/-- A quotient by a power of two that leaves 53 binary digits has 53 binary digits. -/
theorem div_two_pow_lt (n : Nat) : n / Nat.pow 2 (n.log2 - 52) < Nat.pow 2 53 := by
  simp only [Nat.pow_eq]
  have hn : n < 2 ^ (n.log2 + 1) := Nat.lt_log2_self
  apply Nat.div_lt_of_lt_mul
  calc n < 2 ^ (n.log2 + 1) := hn
    _ ≤ 2 ^ (n.log2 - 52 + 53) := Nat.pow_le_pow_right (by decide) (by omega)
    _ = 2 ^ (n.log2 - 52) * 2 ^ 53 := Nat.pow_add _ _ _

/-- Shifting a number of `m` binary digits by `k` places yields one of `m + k` digits. -/
theorem log2_shifted_lt {a unit m k : Nat} (ha : a < Nat.pow 2 m) (hm : 0 < m)
    (hunit : unit = Nat.pow 2 k) : (a * unit).log2 < m + k := by
  subst hunit
  simp only [Nat.pow_eq] at *
  by_cases hzero : a * 2 ^ k = 0
  · rw [hzero, Nat.log2_zero]
    omega
  · rw [Nat.log2_lt hzero, Nat.pow_add]
    exact Nat.mul_lt_mul_of_pos_right ha (Nat.pow_pos (by decide))

/-- **A whole number of 64 binary digits is within the range of the format.** -/
theorem nearestRank_lt {a : Nat} (ha : a < Nat.pow 2 64) :
    nearestRank a 1 < 2047 * Nat.pow 2 52 := by
  have hlog := log2_shifted_lt ha (by decide) unitsInOne.eq_1
  have hround := roundHalfEven_le (a * unitsInOne) (Nat.pow 2 ((a * unitsInOne).log2 - 52))
  have hdigits := div_two_pow_lt (a * unitsInOne)
  unfold nearestRank
  simp only [Nat.div_one, Nat.one_mul, Nat.pow_eq] at *
  generalize (a * unitsInOne).log2 = digits at *
  omega

/-- An integer of 64 bits is not too large for a floating-point number. -/
theorem exists_ofInt? {n : Int} (hn : Json.isWord n) : ∃ x, ofInt? n = some x := by
  rw [Json.isWord, Bool.and_eq_true, decide_eq_true_iff, decide_eq_true_iff] at hn
  have hlt : n.natAbs < Nat.pow 2 64 := by
    rw [Nat.pow_eq]
    omega
  rw [ofInt?, ofRatio?, dif_pos (nearestRank_lt hlt)]
  exact ⟨_, rfl⟩

end Binary64

end SnapshotDiff
