import Mathlib.Data.List.Infix
import SnapshotDiff.BuiltIn
import SnapshotDiff.Proofs.Path

/-!
# Paths as lists of names

`Path.within` looks at the text of a path only: the path has to begin with the other one, and a dot
or nothing has to follow.  In terms of the names that paths are made of this is the prefix order.  It
is so for every text, also for one with empty names in it, because the dots alone decide where a
path is cut.

## Main results

* `Path.segments_inj` — a path is determined by its names.
* `Path.within_iff_segments` — a path lies within another one if its names begin with those of the
  other one.
* `Rules.ignoring_reportable_along` — a walk that turns back at ignored paths leaves out what the
  filter rejects.
* `Path.within_prefix_order` — all of this for any texts.
-/

namespace SnapshotDiff

/-- What stands in front of a mark and what stands behind it are cut on their own. -/
theorem Text.cut_append_mark (mark : Char) (a b : List Char) :
    cut mark (a ++ mark :: b) = cut mark a ++ cut mark b := by
  induction a with
  | nil => simp [cut]
  | cons c a ih =>
    rw [List.cons_append, cut, cut, ih]
    split
    · rfl
    · -- the first piece of the front part is not its end, since more pieces follow
      obtain ⟨p, ps, hcut⟩ := List.exists_cons_of_ne_nil (cut_ne_nil mark a)
      rw [hcut]
      rfl

namespace Path

variable {p q r : String}

/-- The text of a path, put together again from its names. -/
theorem exists_segments (p : String) : ∃ name names, segments p = name :: names
    ∧ p.toList = name.toList ++ names.flatMap fun n => '.' :: n.toList := by
  obtain ⟨c, cs, hcut⟩ := List.exists_cons_of_ne_nil (Text.cut_ne_nil '.' p.toList)
  refine ⟨String.ofList c, cs.map String.ofList, ?_, ?_⟩
  · rw [segments, Text.pieces, hcut, List.map_cons]
  · rw [Text.eq_of_cut hcut, List.flatMap_map]
    simp

/-- **A path is determined by its names.** -/
theorem segments_inj (h : segments p = segments q) : p = q := by
  obtain ⟨a, as, ha, hp⟩ := exists_segments p
  obtain ⟨b, bs, hb, hq⟩ := exists_segments q
  rw [ha, hb] at h
  obtain ⟨rfl, rfl⟩ := List.cons.inj h
  exact String.toList_inj.mp (hp.trans hq.symm)

/-- **A path lies within another one if its names begin with those of the other one.** -/
theorem within_iff_segments : within p q ↔ segments q <+: segments p := by
  rw [within_iff]
  constructor
  · rintro (rfl | ⟨rest, hrest⟩)
    · exact List.prefix_rfl
    · refine ⟨(Text.cut '.' rest).map String.ofList, ?_⟩
      rw [segments, segments, Text.pieces, Text.pieces, hrest, Text.cut_append_mark,
        List.map_append]
  · rintro ⟨more, hmore⟩
    cases more with
    | nil =>
      rw [List.append_nil] at hmore
      exact Or.inl (segments_inj hmore.symm)
    | cons name names =>
      -- in front of every further name there is a dot
      obtain ⟨a, as, ha, hq⟩ := exists_segments q
      obtain ⟨b, bs, hb, hp⟩ := exists_segments p
      rw [ha, hb, List.cons_append] at hmore
      obtain ⟨rfl, rfl⟩ := List.cons.inj hmore
      refine Or.inr ⟨name.toList ++ names.flatMap fun n => '.' :: n.toList, ?_⟩
      rw [hp, hq, List.flatMap_append, List.flatMap_cons, List.append_assoc, List.cons_append]

/-- Two paths within each other are one. -/
theorem within_antisymm (hpq : within p q) (hqp : within q p) : p = q := by
  rw [within_iff_segments] at hpq hqp
  exact segments_inj (hqp.eq_of_length_le hpq.length_le)

/-- What an object lies within, its fields lie within. -/
theorem within_child_of_within (hp : p ≠ "") (name : String) (h : within p q) :
    within (child p name) q :=
  within_trans (within_child hp name) h

/-- What is below an object that lies within a path lies within it, however far below. -/
theorem within_along_of_above (hp : p ≠ "") {above route : List String} (h : above <+: route)
    (hwithin : within (along p above) q) : within (along p route) q := by
  obtain ⟨below, rfl⟩ := h
  -- no object on the way has the empty path
  have hne : along p above ≠ "" := by
    clear hwithin
    induction above generalizing p with
    | nil => exact hp
    | cons name above ih => exact ih (child_ne_empty_of_ne hp name)
  rw [along, List.foldl_append]
  exact within_trans (within_along hne below) hwithin

end Path

open SnapshotDiff.Path

/-- **A walk that turns back at ignored paths leaves out what the filter rejects**, and nothing else:
a place below an object is reported if neither itself nor any object on the way is ignored. -/
theorem Rules.ignoring_reportable_along (rules : Rules) (tops : List String) {p : String}
    (hp : p ≠ "") (route : List String) :
    (rules.ignoring tops).reportable (along p route) ↔ rules.reportable (along p route)
      ∧ ∀ above, above <+: route → ∀ top ∈ tops, within (along p above) top = false := by
  rw [ignoring_reportable, Bool.and_eq_true, Bool.not_eq_true', List.any_eq_false]
  simp only [Bool.not_eq_true]
  refine and_congr_right fun _ => ⟨fun h above habove top htop => ?_, fun h => h route List.prefix_rfl⟩
  rw [Bool.eq_false_iff]
  intro hwithin
  exact absurd (within_along_of_above hp habove hwithin) (by simp [h top htop])

/-- **Paths are ordered by the names that they are made of.**  Whatever the texts are, a path lies
within another one if its list of names begins with that of the other one.  So it lies within itself,
within whatever that lies within, and two paths within each other are one.  What an object lies
within, its fields lie within, unless it is the root, so that nothing below an ignored object is
reported, and nothing else is kept back. -/
theorem Path.within_prefix_order :
    (∀ p q : String, within p q ↔ segments q <+: segments p)
    ∧ (∀ p : String, within p p)
    ∧ (∀ p q r : String, within p q → within q r → within p r)
    ∧ (∀ p q : String, within p q → within q p → p = q)
    ∧ (∀ p q name : String, p ≠ "" → within p q → within (child p name) q)
    ∧ ∀ (rules : Rules) (tops : List String) (p : String) (route : List String), p ≠ "" →
      ((rules.ignoring tops).reportable (along p route) ↔ rules.reportable (along p route)
        ∧ ∀ above, above <+: route → ∀ top ∈ tops, within (along p above) top = false) := by
  refine ⟨fun p q => within_iff_segments, within_self, fun p q r => within_trans,
    fun p q => within_antisymm, ?_, ?_⟩
  · intro p q name hp h
    exact within_child_of_within hp name h
  · intro rules tops p route hp
    exact rules.ignoring_reportable_along tops hp route

/-- A name that merely begins like another one is not within it, and empty names count. -/
theorem Path.within_prefix_order_metadata :
    (within "metadata..zone" "metadata." ∧ within "metadata." "metadata"
      ∧ within "metadata..zone" "metadata")
    ∧ (within "metadata" "metadata" ∧ "metadata" = "metadata")
    ∧ ("metadata." ≠ "" ∧ within (child "metadata." "zone") "metadata")
    ∧ ((Rules.builtIn .item).ignoring ["metadata"]).reportable "metadataSource.zone" := by
  obtain ⟨hiff, hrefl, htrans, hantisymm, hchild, hwalk⟩ := within_prefix_order
  have hzone : within "metadata..zone" "metadata." := by decide
  have hdot : within "metadata." "metadata" := by decide
  refine ⟨⟨hzone, hdot, htrans _ _ _ hzone hdot⟩, ⟨hrefl _, hantisymm _ _ (hrefl _) (hrefl _)⟩,
    ⟨by decide, hchild _ _ _ (by decide) hdot⟩, ?_⟩
  -- neither the object nor its field is within the ignored path
  have hoff : ∀ above ∈ ["zone"].inits, ∀ top ∈ ["metadata"],
      within (along "metadataSource" above) top = false := by decide
  refine (hwalk _ _ "metadataSource" ["zone"] (by decide)).mpr ⟨rfl, fun above habove => ?_⟩
  exact hoff above ((List.mem_inits _ _).mpr habove)

end SnapshotDiff
