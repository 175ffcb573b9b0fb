import SnapshotDiff.Path
import SnapshotDiff.Proofs.Text.Delimited

/-!
# Paths below a path

## Main definitions

* `Path.along` — the path at the end of a route of names.

## Main results

* `Path.within_iff`, `Path.within_trans` — what it is to lie below a path.
* `Path.along_segments` — the names that a path is made of lead to it.
* `Path.along_inj` — names without dots can be told from the path that they lead along.
* `Path.eq_of_within_child` — a path lies below one field of an object only.
-/

namespace SnapshotDiff

/-- A text is what it was cut into, with a mark in front of every piece but the first. -/
theorem Text.eq_of_cut {mark : Char} {cs p : List Char} {ps : List (List Char)}
    (h : cut mark cs = p :: ps) : cs = p ++ ps.flatMap (mark :: ·) := by
  induction cs generalizing p ps with
  | nil =>
    obtain ⟨rfl, rfl⟩ := List.cons.inj h
    rfl
  | cons c cs ih =>
    obtain ⟨q, qs, hcut⟩ := List.exists_cons_of_ne_nil (cut_ne_nil mark cs)
    rw [cut, hcut] at h
    split at h
    · next heq =>
      obtain ⟨rfl, rfl⟩ := List.cons.inj h
      rw [heq, List.nil_append, List.flatMap_cons, List.cons_append, ← ih hcut]
    · obtain ⟨rfl, rfl⟩ := List.cons.inj h
      rw [List.cons_append, ← ih hcut]

namespace Path

variable {p q r path : String}

theorem within_iff : within p q ↔ p = q ∨ ∃ rest, p.toList = q.toList ++ '.' :: rest := by
  unfold within
  cases h : rest? q.toList p.toList with
  | none =>
    -- `p` does not even begin with `q`
    have hnone : ∀ rest, p.toList ≠ q.toList ++ rest := by
      intro rest hrest
      rw [rest?_eq_some_iff.mpr hrest] at h
      exact absurd h (by simp)
    apply iff_of_false (by simp)
    rintro (rfl | ⟨rest, hrest⟩)
    · exact hnone [] (List.append_nil _).symm
    · exact hnone _ hrest
  | some cs =>
    rw [rest?_eq_some_iff] at h
    cases cs with
    | nil =>
      rw [List.append_nil] at h
      exact iff_of_true rfl (Or.inl (String.toList_inj.mp h))
    | cons c rest =>
      dsimp only
      rw [decide_eq_true_iff]
      constructor
      · rintro rfl
        exact Or.inr ⟨rest, h⟩
      · rintro (rfl | ⟨rest', h'⟩)
        · simp at h
        · rw [h'] at h
          exact (List.cons.inj (List.append_cancel_left h)).1.symm

/-- Whatever lies below a path that lies below another one lies below that one. -/
theorem within_trans (hpq : within p q) (hqr : within q r) : within p r := by
  rw [within_iff] at *
  rcases hpq with rfl | ⟨s, hs⟩
  · exact hqr
  · apply Or.inr
    rcases hqr with rfl | ⟨t, ht⟩
    · exact ⟨s, hs⟩
    · exact ⟨t ++ '.' :: s, by rw [hs, ht, List.append_assoc, List.cons_append]⟩

theorem child_eq_append (hpath : path ≠ "") (name : String) :
    (child path name).toList = path.toList ++ '.' :: name.toList := by
  rw [child, if_neg hpath]
  simp

/-- The path of what a route of names leads to from the object at a path. -/
def along (path : String) (route : List String) : String := route.foldl child path

@[simp] theorem along_nil (path : String) : along path [] = path := rfl

@[simp] theorem along_cons (path name : String) (route : List String) :
    along path (name :: route) = along (child path name) route := rfl

/-- A field lies below its object, unless that is the root. -/
theorem within_child (hpath : path ≠ "") (name : String) : within (child path name) path :=
  within_iff.mpr (Or.inr ⟨name.toList, child_eq_append hpath name⟩)

theorem child_ne_empty_of_ne (hpath : path ≠ "") (name : String) : child path name ≠ "" := by
  intro h
  have happend := child_eq_append hpath name
  rw [h] at happend
  simp at happend

theorem child_ne_empty {name : String} (hname : name ≠ "") (path : String) :
    child path name ≠ "" := by
  by_cases hpath : path = ""
  · rwa [hpath, child_root]
  · exact child_ne_empty_of_ne hpath name

theorem item_ne_empty (path : String) (index : Nat) : item path index ≠ "" := by
  intro h
  have htoList := congrArg String.toList h
  simp [item] at htoList

theorem notMem_child {name : String} {c : Char} (hpath : c ∉ path.toList) (hname : c ∉ name.toList)
    (hc : c ≠ '.') : c ∉ (child path name).toList := by
  by_cases hempty : path = ""
  · rwa [hempty, child_root]
  · rw [child_eq_append hempty]
    simp [hpath, hname, hc]

/-- Names without dots are told apart by what lies below them. -/
theorem eq_of_append_dots {a b s t : List Char} (ha : '.' ∉ a) (hb : '.' ∉ b)
    (hs : s = [] ∨ ∃ s', s = '.' :: s') (ht : t = [] ∨ ∃ t', t = '.' :: t')
    (h : a ++ s = b ++ t) : a = b := by
  rcases hs with rfl | ⟨s, rfl⟩ <;> rcases ht with rfl | ⟨t, rfl⟩
  · simpa using h
  · exact absurd (show '.' ∈ a by rw [← List.append_nil a, h]; simp) ha
  · exact absurd (show '.' ∈ b by rw [← List.append_nil b, ← h]; simp) hb
  · exact (Text.append_mark_inj ha hb h).1

/-- No object lies at or below a field of its own. -/
theorem not_within_child {name : String} (hchild : child path name ≠ "") :
    ¬within path (child path name) := by
  intro h
  -- what lies at or below a path is not shorter, but a field has a longer path than its object
  have hlength : (child path name).toList.length ≤ path.toList.length := by
    rcases within_iff.mp h with heq | ⟨rest, hrest⟩
    · exact heq ▸ Nat.le_refl _
    · rw [hrest, List.length_append]
      omega
  by_cases hpath : path = ""
  · subst hpath
    refine hchild (String.toList_inj.mp (List.eq_nil_of_length_eq_zero ?_))
    simpa using hlength
  · rw [child_eq_append hpath, List.length_append, List.length_cons] at hlength
    omega

/-- What a route leads to lies at or below where the route begins. -/
theorem within_along (hpath : path ≠ "") (route : List String) :
    within (along path route) path := by
  induction route generalizing path with
  | nil => exact within_self path
  | cons name route ih =>
    exact within_trans (ih (child_ne_empty_of_ne hpath name)) (within_child hpath name)

theorem toList_along (hpath : path ≠ "") (route : List String) :
    (along path route).toList = path.toList ++ route.flatMap fun name => '.' :: name.toList := by
  induction route generalizing path with
  | nil => simp
  | cons name route ih =>
    rw [along_cons, ih (child_ne_empty_of_ne hpath name), child_eq_append hpath, List.flatMap_cons,
      List.append_assoc]

/-- Names without dots can be told from the path that they lead along. -/
theorem along_inj (hpath : path ≠ "") {p q : List String} (hp : ∀ name ∈ p, '.' ∉ name.toList)
    (hq : ∀ name ∈ q, '.' ∉ name.toList) (h : along path p = along path q) : p = q := by
  have htext := congrArg String.toList h
  rw [toList_along hpath, toList_along hpath] at htext
  replace htext := List.append_cancel_left htext
  clear h
  -- behind a name the text ends or goes on with a dot
  have hbehind : ∀ route : List String, (route.flatMap fun name => '.' :: name.toList) = []
      ∨ ∃ s, (route.flatMap fun name => '.' :: name.toList) = '.' :: s := by
    intro route
    cases route with
    | nil => exact Or.inl rfl
    | cons name route => exact Or.inr ⟨_, List.flatMap_cons⟩
  induction p generalizing q with
  | nil =>
    cases q with
    | nil => rfl
    | cons b q => simp at htext
  | cons a p ih =>
    cases q with
    | nil => simp at htext
    | cons b q =>
      obtain ⟨ha, hps⟩ := List.forall_mem_cons.mp hp
      obtain ⟨hb, hqs⟩ := List.forall_mem_cons.mp hq
      rw [List.flatMap_cons, List.flatMap_cons, List.cons_append, List.cons_append,
        List.cons.injEq] at htext
      obtain rfl : a = b :=
        String.toList_inj.mp (eq_of_append_dots ha hb (hbehind p) (hbehind q) htext.2)
      rw [ih hps hqs (List.append_cancel_left htext.2)]

/-- The names that a path is made of lead to it from the root, if the first of them is not empty. -/
theorem along_segments {name : String} {names : List String} (h : segments p = name :: names)
    (hname : name ≠ "") : along "" (segments p) = p := by
  obtain ⟨q, qs, hcut⟩ := List.exists_cons_of_ne_nil (Text.cut_ne_nil '.' p.toList)
  rw [segments, Text.pieces, hcut, List.map_cons, List.cons.injEq] at h
  obtain ⟨rfl, rfl⟩ := h
  rw [segments, Text.pieces, hcut, List.map_cons, along_cons, child_root]
  apply String.toList_inj.mp
  rw [toList_along hname, List.flatMap_map, Text.eq_of_cut hcut]
  simp

/-- **A path lies below one field of an object only.** -/
theorem eq_of_within_child {a b : String} (ha : '.' ∉ a.toList) (hb : '.' ∉ b.toList)
    (hpa : within p (child path a)) (hpb : within p (child path b)) : a = b := by
  -- behind the name the path ends or goes on with a dot
  have hrest : ∀ {name : String}, within p (child path name) →
      ∃ s, (s = [] ∨ ∃ s', s = '.' :: s') ∧ p.toList = (child path name).toList ++ s := by
    intro name h
    rcases within_iff.mp h with rfl | ⟨s, hs⟩
    · exact ⟨[], Or.inl rfl, (List.append_nil _).symm⟩
    · exact ⟨_, Or.inr ⟨s, rfl⟩, hs⟩
  obtain ⟨s, hs, has⟩ := hrest hpa
  obtain ⟨t, ht, hbt⟩ := hrest hpb
  -- both fields begin one path, and the first dot behind their object ends their names
  rw [has] at hbt
  refine String.toList_inj.mp (eq_of_append_dots ha hb hs ht ?_)
  by_cases hpath : path = ""
  · rwa [hpath, child_root, child_root] at hbt
  · rw [child_eq_append hpath, child_eq_append hpath, List.append_assoc, List.append_assoc] at hbt
    exact (List.cons.inj (List.append_cancel_left hbt)).2

end Path

end SnapshotDiff
