import SnapshotDiff.Proofs.Difference.Places

/-!
# What is found beneath a member

A finding on a member of a collection names the member only, and a member of one of its collections
names it in its match.  So what was found beneath a member, at any depth, can be told from the list
of all findings: it is found on objects that a chain of matches leads to.  In the tree of
differences it is what hangs below the member.

## Main definitions

* `Finding.tells` — the finding is more than a match.
* `Finding.Beneath` — matches lead from one object to another.

## Main results

* `Difference.mem_beneath_iff` — what is found beneath a member hangs below it in the tree.
* `Difference.anyTells_iff_findings` — a tree tells of a change if one of its findings does.
-/

namespace SnapshotDiff

namespace Finding

/-- A field differs, or a member came or left. -/
def tells : Finding → Bool
  | field .. | member .. => true
  | matched .. => false

/-- The object whose field or collection it was found on. -/
def holder : Finding → Owner
  | field o _ => o
  | member site _ _ _ | matched site _ _ _ => site.owner

/-- The object is the given one, or was matched in a collection of that, or of an object beneath
that. -/
inductive Beneath (fs : List Finding) (top : Owner) : Owner → Prop
  | top : Beneath fs top top
  | member {site : Site} {o : Owner} {old new : Json} (h : Beneath fs top site.owner)
    (hmem : matched site o old new ∈ fs) : Beneath fs top o

end Finding

namespace Difference

open Finding (Beneath)

variable {rootType : String} {root ds es : List Difference} {trail : List (String × String)}
  {o : Owner} {f : Finding}

@[simp] theorem holder_head (o : Owner) (d : Difference) : (head o d).holder = o := by
  cases d <;> rfl

/-! ### What tells of a change -/

mutual

theorem tells_iff_findings (o : Owner) : ∀ d : Difference, tells d ↔ ∃ f ∈ findings o d, f.tells
  | field change => by simp [tells, findings, Finding.tells]
  | oneSided typeName path key kind value => by
    simp [tells, findings, Finding.ofMember, Finding.tells]
  | twoSided typeName path key old new inner => by
    rw [tells, findings, anyTells_iff_findings (o.member typeName path key) inner]
    simp [Finding.tells]

/-- A tree tells of a change if one of its findings does. -/
theorem anyTells_iff_findings (o : Owner) : ∀ ds : List Difference,
    anyTells ds ↔ ∃ f ∈ allFindings o ds, f.tells
  | [] => by simp [anyTells, allFindings]
  | d :: ds => by
    rw [anyTells, allFindings, Bool.or_eq_true, tells_iff_findings o d, anyTells_iff_findings o ds]
    simp only [List.mem_append, or_and_right, exists_or]

end

/-! ### What hangs below a member -/

section Beneath

variable (hroot : Sound root)

include hroot

/-- An object beneath the owner of a place has a place, with what was found below the owner. -/
theorem exists_place_of_beneath (h : Place rootType root trail o ds) {p : Owner}
    (hp : Beneath (allFindings (.root rootType) root) o p) : ∃ trail' es,
      Place rootType root trail' p es ∧ ∀ f ∈ allFindings p es, f ∈ allFindings o ds := by
  induction hp with
  | top => exact ⟨trail, ds, h, fun f hf => hf⟩
  | @member site p old new _ hmem ih =>
    obtain ⟨trail', es, hplace, hsub⟩ := ih
    obtain ⟨trail'', q, cs, hplace', d, hd, hhead⟩ := (mem_allFindings_iff hroot).mp hmem
    cases d with
    | field | oneSided => simp [head, Finding.ofMember] at hhead
    | twoSided typeName path key old' new' inner =>
      -- the match was found at the place above
      simp only [head, Finding.matched.injEq] at hhead
      obtain ⟨rfl, rfl, rfl, rfl⟩ := hhead
      obtain ⟨rfl, -, rfl⟩ := place_unique hroot hplace hplace' rfl
      refine ⟨_, inner, hplace.member hd, fun f hf => hsub f ?_⟩
      refine mem_allFindings.mpr ⟨_, hd, mem_findings_iff.mpr (Or.inr ?_)⟩
      exact ⟨_, _, _, _, _, _, rfl, hf⟩

/-- What is found below a place is found on objects beneath its owner. -/
theorem beneath_holder (h : Place rootType root trail o ds) {top : Owner}
    (htop : Beneath (allFindings (.root rootType) root) top o) (hf : f ∈ allFindings o ds) :
    Beneath (allFindings (.root rootType) root) top f.holder := by
  have hds := h.sound hroot
  induction hds generalizing trail o with
  | @intro ds nodup readable isChange inner ih =>
    obtain ⟨d, hd, hfd⟩ := mem_allFindings.mp hf
    rcases mem_findings_iff.mp hfd with rfl | ⟨typeName, path, key, old, new, es, rfl, hfes⟩
    · rwa [holder_head]
    · have hmatched : Finding.matched ⟨o, path⟩ (o.member typeName path key) old new
          ∈ allFindings (.root rootType) root :=
        (mem_allFindings_iff hroot).mpr ⟨_, _, _, h, _, hd, rfl⟩
      exact ih hd (h.member hd) (Beneath.member (by exact htop) hmatched) hfes

/-- **What is found beneath the owner of a place hangs below the place.** -/
theorem mem_beneath_iff (h : Place rootType root trail o ds) :
    f ∈ allFindings (.root rootType) root
        ∧ Beneath (allFindings (.root rootType) root) o f.holder
      ↔ f ∈ allFindings o ds := by
  constructor
  · rintro ⟨hf, hbeneath⟩
    obtain ⟨trail', es, hplace, hsub⟩ := exists_place_of_beneath hroot h hbeneath
    obtain ⟨trail'', p, cs, hplace', d, hd, rfl⟩ := (mem_allFindings_iff hroot).mp hf
    rw [holder_head] at hplace
    obtain ⟨-, -, rfl⟩ := place_unique hroot hplace hplace' rfl
    refine hsub _ ?_
    rw [holder_head]
    exact mem_allFindings.mpr ⟨d, hd, mem_findings_iff.mpr (Or.inl rfl)⟩
  · intro hf
    exact ⟨h.mem_allFindings_root hf, beneath_holder hroot h .top hf⟩

end Beneath

end Difference

end SnapshotDiff
