import Mathlib.Data.List.Forall2
import SnapshotDiff.Json

/-!
# Equality of values is an equivalence

`Json.same` holds the two zeros equal, so it is coarser than equality of terms.  It is symmetric and
transitive all the same.

## Main results

* `Json.same_symm`, `Json.same_trans` — equality of values is an equivalence.
* `Json.rel_lookup_of_sameMembers` — equal objects have equal members.
-/

namespace List

/-- What stands under a key in two lists is related if the lists are, entry by entry. -/
theorem Forall₂.rel_lookup {α β : Type} {R : α → β → Prop} {l : List (String × α)}
    {l' : List (String × β)} (h : Forall₂ (fun a b => a.1 = b.1 ∧ R a.2 b.2) l l') (key : String) :
    Option.Rel R (l.lookup key) (l'.lookup key) := by
  induction h with
  | nil => exact .none
  | @cons a b _ _ hab _ ih =>
    obtain ⟨k, x⟩ := a
    obtain ⟨l, y⟩ := b
    obtain ⟨rfl, hxy⟩ : k = l ∧ R x y := hab
    rw [lookup_cons, lookup_cons]
    split
    · exact .some hxy
    · exact ih

theorem Forall₂.exists_of_mem {α β : Type} {R : α → β → Prop} {l : List α} {l' : List β}
    (h : Forall₂ R l l') {a : α} (ha : a ∈ l) : ∃ b ∈ l', R a b := by
  induction h with
  | nil => cases ha
  | @cons c d l l' hcd _ ih =>
    rcases mem_cons.mp ha with rfl | ha
    · exact ⟨d, mem_cons_self, hcd⟩
    · obtain ⟨b, hb, hab⟩ := ih ha
      exact ⟨b, mem_cons_of_mem d hb, hab⟩

end List

namespace SnapshotDiff

namespace Binary64

variable {x y z : Binary64}

/-- Two numbers have equal values if they are one number, or if both are zeros. -/
theorem sameValue_iff : x.sameValue y ↔ x = y ∨ x.rank.val = 0 ∧ y.rank.val = 0 := by
  simp [sameValue]

theorem sameValue_symm (h : x.sameValue y) : y.sameValue x := by
  rw [sameValue_iff] at h ⊢
  rcases h with rfl | ⟨hx, hy⟩
  · exact Or.inl rfl
  · exact Or.inr ⟨hy, hx⟩

theorem sameValue_trans (hxy : x.sameValue y) (hyz : y.sameValue z) : x.sameValue z := by
  rw [sameValue_iff] at hxy hyz ⊢
  rcases hxy with rfl | ⟨hx, hy⟩
  · exact hyz
  · rcases hyz with rfl | ⟨-, hz⟩
    · exact Or.inr ⟨hx, hy⟩
    · exact Or.inr ⟨hx, hz⟩

end Binary64

namespace Json

/-! ### Values of one kind -/

theorem exists_arr_of_same {vs : List Json} {w : Json} (h : same (arr vs) w) :
    ∃ ws, w = arr ws ∧ sameItems vs ws := by
  cases w <;> simp_all [same]

theorem exists_obj_of_same {ms : Table Json} {w : Json} (h : same (obj ms) w) :
    ∃ ns, w = obj ns ∧ sameMembers ms ns := by
  cases w <;> simp_all [same]

theorem exists_float_of_same {x : Binary64} {w : Json} (h : same (float x) w) :
    ∃ y, w = float y ∧ x.sameValue y := by
  cases w <;> simp_all [same]

/-- Values without parts are equal only to themselves, floating-point numbers apart. -/
theorem eq_of_same {v w : Json} (h : same v w) (hfloat : ∀ x, v ≠ float x)
    (harr : ∀ vs, v ≠ arr vs) (hobj : ∀ ms, v ≠ obj ms) : v = w := by
  cases v <;> cases w <;> simp_all [same]

/-! ### Symmetry -/

mutual

theorem same_symm : ∀ {v w : Json}, same v w → same w v
  | arr vs, w, h => by
    obtain ⟨ws, rfl, hvs⟩ := exists_arr_of_same h
    exact sameItems_symm hvs
  | obj ms, w, h => by
    obtain ⟨ns, rfl, hms⟩ := exists_obj_of_same h
    exact sameMembers_symm hms
  | float x, w, h => by
    obtain ⟨y, rfl, hxy⟩ := exists_float_of_same h
    exact Binary64.sameValue_symm hxy
  | null, w, h | bool _, w, h | int _, w, h | str _, w, h => by
    rw [eq_of_same h] <;> simp [same_refl]

theorem sameItems_symm : ∀ {vs ws : List Json}, sameItems vs ws → sameItems ws vs
  | [], [], _ => rfl
  | v :: vs, w :: ws, h => by
    rw [sameItems, Bool.and_eq_true] at h ⊢
    exact ⟨same_symm h.1, sameItems_symm h.2⟩

theorem sameMembers_symm : ∀ {ms ns : List (String × Json)}, sameMembers ms ns → sameMembers ns ms
  | [], [], _ => rfl
  | (k, v) :: ms, (l, w) :: ns, h => by
    rw [sameMembers, Bool.and_eq_true, Bool.and_eq_true, beq_iff_eq] at h ⊢
    exact ⟨⟨h.1.1.symm, same_symm h.1.2⟩, sameMembers_symm h.2⟩

end

/-! ### Transitivity -/

mutual

theorem same_trans : ∀ {u v w : Json}, same u v → same v w → same u w
  | arr us, v, w, h, h' => by
    obtain ⟨vs, rfl, hus⟩ := exists_arr_of_same h
    obtain ⟨ws, rfl, hvs⟩ := exists_arr_of_same h'
    exact sameItems_trans hus hvs
  | obj ls, v, w, h, h' => by
    obtain ⟨ms, rfl, hls⟩ := exists_obj_of_same h
    obtain ⟨ns, rfl, hms⟩ := exists_obj_of_same h'
    exact sameMembers_trans hls hms
  | float x, v, w, h, h' => by
    obtain ⟨y, rfl, hxy⟩ := exists_float_of_same h
    obtain ⟨z, rfl, hyz⟩ := exists_float_of_same h'
    exact Binary64.sameValue_trans hxy hyz
  | null, v, w, h, h' | bool _, v, w, h, h' | int _, v, w, h, h' | str _, v, w, h, h' => by
    rw [eq_of_same h] <;> simp [h']

theorem sameItems_trans : ∀ {us vs ws : List Json},
    sameItems us vs → sameItems vs ws → sameItems us ws
  | [], [], [], _, _ => rfl
  | u :: us, v :: vs, w :: ws, h, h' => by
    rw [sameItems, Bool.and_eq_true] at h h' ⊢
    exact ⟨same_trans h.1 h'.1, sameItems_trans h.2 h'.2⟩

theorem sameMembers_trans : ∀ {ls ms ns : List (String × Json)},
    sameMembers ls ms → sameMembers ms ns → sameMembers ls ns
  | [], [], [], _, _ => rfl
  | (j, u) :: ls, (k, v) :: ms, (l, w) :: ns, h, h' => by
    rw [sameMembers, Bool.and_eq_true, Bool.and_eq_true, beq_iff_eq] at h h' ⊢
    exact ⟨⟨h.1.1.trans h'.1.1, same_trans h.1.2 h'.1.2⟩, sameMembers_trans h.2 h'.2⟩

end

/-! ### What arrays and objects hold -/

theorem sameItems_iff_forall₂ {vs ws : List Json} :
    sameItems vs ws ↔ List.Forall₂ (fun v w => same v w = true) vs ws := by
  induction vs generalizing ws with
  | nil => cases ws <;> simp [sameItems]
  | cons v vs ih => cases ws <;> simp [sameItems, ih]

theorem forall₂_of_sameMembers : ∀ {ms ns : Table Json}, sameMembers ms ns →
    List.Forall₂ (fun a b => a.1 = b.1 ∧ same a.2 b.2 = true) ms ns
  | [], [], _ => .nil
  | (k, v) :: ms, (l, w) :: ns, h => by
    rw [sameMembers, Bool.and_eq_true, Bool.and_eq_true, beq_iff_eq] at h
    exact .cons h.1 (forall₂_of_sameMembers h.2)

/-- Equal objects have equal members. -/
theorem rel_lookup_of_sameMembers {ms ns : Table Json} (h : sameMembers ms ns) (key : String) :
    Option.Rel (fun v w => same v w = true) (ms.lookup key) (ns.lookup key) :=
  (forall₂_of_sameMembers h).rel_lookup key

/-! ### Values that may be absent -/

theorem same?_refl (v : Option Json) : same? v v := by
  cases v with
  | none => rfl
  | some v => exact same_refl v

theorem same?_symm {v w : Option Json} (h : same? v w) : same? w v := by
  cases v with
  | none => cases w <;> simp_all
  | some v =>
    cases w with
    | none => simp at h
    | some w => exact same_symm h

theorem same?_trans {u v w : Option Json} (h : same? u v) (h' : same? v w) : same? u w := by
  cases u with
  | none => cases v <;> simp_all
  | some u =>
    cases v with
    | none => simp at h
    | some v =>
      cases w with
      | none => simp at h'
      | some w => exact same_trans h h'

end Json

end SnapshotDiff
