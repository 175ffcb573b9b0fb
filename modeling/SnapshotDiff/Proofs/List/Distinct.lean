import Mathlib.Data.List.Induction
import Mathlib.Data.List.Nodup
import Mathlib.Data.List.Pairwise

/-!
# Lists without their repetitions

`List.eraseDups` keeps the first occurrence of every element.  What is said of it here is said one
element at a time from the end, which is how a list of findings grows.

## Main results

* `List.eraseDups_concat` — one more element is kept if it is new.
* `List.nodup_eraseDups`, `List.eraseDups_filter` — nothing is left twice; filters commute.
* `List.flatMap_eraseDups_flatMap` — blocks that share nothing of interest are read one by one.
* `List.flatMap_eq_of_nodup` — of a list without repetitions only one element contributes.
* `List.eq_of_nodup_filterMap` — what is picked once was picked from one element.
-/

namespace List

variable {α β γ : Type*} [DecidableEq α]

/-- One more element is kept if it is new. -/
theorem eraseDups_concat (l : List α) (a : α) :
    (l ++ [a]).eraseDups = if a ∈ l then l.eraseDups else l.eraseDups ++ [a] := by
  rw [eraseDups_append]
  by_cases h : a ∈ l
  · simp [removeAll, h]
  · simp [removeAll, h, eraseDups_cons]

theorem nodup_eraseDups (l : List α) : l.eraseDups.Nodup := by
  induction l using reverseRecOn with
  | nil => exact nodup_nil
  | append_singleton l a ih =>
    rw [eraseDups_concat]
    split
    · exact ih
    · next h =>
      refine nodup_append.mpr ⟨ih, nodup_singleton a, ?_⟩
      rintro b hb _ hc rfl
      rw [mem_singleton] at hc
      exact h (hc ▸ mem_eraseDups.mp hb)

theorem perm_eraseDups {l l' : List α} (h : l.Perm l') : l.eraseDups.Perm l'.eraseDups := by
  refine (perm_ext_iff_of_nodup (nodup_eraseDups _) (nodup_eraseDups _)).mpr fun a => ?_
  rw [mem_eraseDups, mem_eraseDups, h.mem_iff]

/-- Filters commute with leaving out repetitions. -/
theorem eraseDups_filter (p : α → Bool) (l : List α) :
    (l.filter p).eraseDups = l.eraseDups.filter p := by
  induction l using reverseRecOn with
  | nil => rfl
  | append_singleton l a ih =>
    rw [eraseDups_concat, filter_append]
    by_cases hp : p a
    · rw [filter_cons_of_pos hp, filter_nil, eraseDups_concat, ih]
      by_cases ha : a ∈ l
      · rw [if_pos ha, if_pos (mem_filter.mpr ⟨ha, hp⟩)]
      · rw [if_neg ha, if_neg fun h => ha (mem_of_mem_filter h), filter_append,
          filter_cons_of_pos hp, filter_nil]
    · rw [filter_cons_of_neg hp, filter_nil, append_nil, ih]
      split
      · rfl
      · rw [filter_append, filter_cons_of_neg hp, filter_nil, append_nil]

omit [DecidableEq α] in
/-- Elements that contribute nothing may be left out first. -/
theorem flatMap_filter_of_eq_nil {g : α → List β} {p : α → Bool} {l : List α}
    (h : ∀ a ∈ l, p a = false → g a = []) : (l.filter p).flatMap g = l.flatMap g := by
  induction l with
  | nil => rfl
  | cons a l ih =>
    obtain ⟨ha, hl⟩ := forall_mem_cons.mp h
    by_cases hp : p a
    · rw [filter_cons_of_pos hp, flatMap_cons, flatMap_cons, ih hl]
    · rw [filter_cons_of_neg hp, flatMap_cons, ha (Bool.not_eq_true _ ▸ hp), nil_append, ih hl]

/-- If what two blocks share contributes nothing, the blocks can be read one by one. -/
theorem flatMap_eraseDups_flatMap {blocks : γ → List α} {g : α → List β} {l : List γ}
    (h : l.Pairwise fun c d => ∀ a ∈ blocks c, a ∈ blocks d → g a = []) :
    (l.flatMap blocks).eraseDups.flatMap g
      = l.flatMap fun c => (blocks c).eraseDups.flatMap g := by
  induction l with
  | nil => rfl
  | cons c l ih =>
    obtain ⟨hc, hl⟩ := pairwise_cons.mp h
    -- what the first block has is left out of the later ones, where it contributes nothing
    have hshared : ∀ a ∈ (l.flatMap blocks).eraseDups, (!(blocks c).elem a) = false → g a = [] := by
      intro a ha hmem
      obtain ⟨d, hd, had⟩ := mem_flatMap.mp (mem_eraseDups.mp ha)
      exact hc d hd a (elem_iff.mp (by simpa using hmem)) had
    rw [flatMap_cons, flatMap_cons, eraseDups_append, flatMap_append, removeAll,
      eraseDups_filter, flatMap_filter_of_eq_nil hshared, ih hl]

/-- Of a list without repetitions only one element contributes. -/
theorem flatMap_eq_of_nodup {g : α → List β} {l : List α} (hl : l.Nodup) {a : α}
    (h : ∀ b ∈ l, b ≠ a → g b = []) : l.flatMap g = if a ∈ l then g a else [] := by
  induction l with
  | nil => rfl
  | cons b l ih =>
    obtain ⟨hb, hl⟩ := nodup_cons.mp hl
    obtain ⟨hhead, htail⟩ := forall_mem_cons.mp h
    rw [flatMap_cons, ih hl htail]
    by_cases hba : b = a
    · subst hba
      simp [hb]
    · have hmem : a ∈ b :: l ↔ a ∈ l := by simp [Ne.symm hba]
      rw [hhead hba, nil_append]
      simp only [hmem]

omit [DecidableEq α] in
/-- What is picked once was picked from one element. -/
theorem eq_of_nodup_filterMap {f : α → Option β} {l : List α} (h : (l.filterMap f).Nodup)
    {a b : α} (ha : a ∈ l) (hb : b ∈ l) {c : β} (hac : f a = some c) (hbc : f b = some c) :
    a = b := by
  rw [nodup_iff_pairwise_ne, pairwise_filterMap] at h
  by_contra hne
  have hsymm : Std.Symm fun a b => ∀ c, f a = some c → ∀ d, f b = some d → c ≠ d :=
    ⟨fun a b hab c hc d hd => (hab d hd c hc).symm⟩
  exact h.forall ha hb hne c hac c hbc rfl

end List
