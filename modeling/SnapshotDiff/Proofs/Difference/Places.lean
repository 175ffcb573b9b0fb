import SnapshotDiff.Proofs.Correlation.Dirty
import SnapshotDiff.Proofs.Correlation.Groups
import SnapshotDiff.Proofs.Difference.Sound

/-!
# Places in a tree of differences

A *trail* is a list of steps from the root.  A tree of differences has a place at a trail if the
steps lead through members that are there on both sides; the owner at the place is made of the
steps, and it can be read back, so different places have different owners.  Whatever is found about
an owner, other than changes of its fields, is thus found once.

From there the members that hold a change can be told from the tree alone: they are those below
which some field, or some member that came or left, was found.

## Main definitions

* `Difference.Place` — the differences at a trail, with their owner.
* `Difference.anyTells` — something changed, here or further down.

## Main results

* `Difference.place_unique` — an owner has one place.
* `Difference.mem_allFindings_iff` — every finding belongs to a place.
* `Difference.holdsChange_iff` — the members that hold a change.
-/

namespace SnapshotDiff

namespace Difference

/-! ### Trails -/

/-- The text that a step adds to an identity. -/
def stepText (s : String × String) : List Char :=
  '/' :: (s.1.toList ++ '[' :: (s.2.toList ++ [']']))

/-- The identity that steps from the root lead to. -/
def trailText (trail : List (String × String)) : List Char := trail.flatMap stepText

theorem identity_member (o : Owner) (typeName path key : String) :
    (o.member typeName path key).identity.toList = o.identity.toList ++ stepText (path, key) := by
  simp [Owner.member, stepText]

/-- The step that an identity begins with can be read back, whatever comes after it. -/
theorem stepText_append_inj {s t : String × String} (hs : IsReadable s) (ht : IsReadable t)
    {a b : List Char} (h : stepText s ++ a = stepText t ++ b) : s = t ∧ a = b := by
  have hhead : s.1.toList ++ '[' :: (s.2.toList ++ ']' :: a)
      = t.1.toList ++ '[' :: (t.2.toList ++ ']' :: b) := by
    simpa [stepText] using h
  -- the first bracket ends the path, and the bracket that closes it ends the key
  obtain ⟨hpath, hrest⟩ := Text.append_mark_inj hs.1 ht.1 hhead
  obtain ⟨hkey, -, htail⟩ := hs.2.eq_of_append ht.2 (by decide) (by decide) hrest
  exact ⟨Prod.ext (String.toList_inj.mp hpath) (String.toList_inj.mp hkey), htail⟩

/-- **Steps can be read back from the identity that they lead to.** -/
theorem trailText_inj {a b : List (String × String)} (ha : ∀ s ∈ a, IsReadable s)
    (hb : ∀ s ∈ b, IsReadable s) (h : trailText a = trailText b) : a = b := by
  induction a generalizing b with
  | nil =>
    cases b with
    | nil => rfl
    | cons s b => simp [trailText, stepText] at h
  | cons s a ih =>
    cases b with
    | nil => simp [trailText, stepText] at h
    | cons t b =>
      obtain ⟨hs, ha⟩ := List.forall_mem_cons.mp ha
      obtain ⟨ht, hb⟩ := List.forall_mem_cons.mp hb
      rw [trailText, trailText, List.flatMap_cons, List.flatMap_cons] at h
      obtain ⟨hst, htail⟩ := stepText_append_inj hs ht h
      rw [hst, ih ha hb htail]

theorem trailText_concat (trail : List (String × String)) (s : String × String) :
    trailText (trail ++ [s]) = trailText trail ++ stepText s := by
  simp [trailText]

/-! ### Places -/

/-- The differences at a trail from the root, with their owner. -/
inductive Place (rootType : String) (root : List Difference) :
    List (String × String) → Owner → List Difference → Prop
  | root : Place rootType root [] (.root rootType) root
  | member {trail : List (String × String)} {o : Owner} {ds es : List Difference}
    {typeName path key : String} {old new : Json} (h : Place rootType root trail o ds)
    (hmem : twoSided typeName path key old new es ∈ ds) :
    Place rootType root (trail ++ [(path, key)]) (o.member typeName path key) es

variable {rootType : String} {root ds es : List Difference} {trail trail' : List (String × String)}
  {o p : Owner} {d e : Difference}

theorem Place.sound (hroot : Sound root) (h : Place rootType root trail o ds) : Sound ds := by
  induction h with
  | root => exact hroot
  | member _ hmem ih => exact ih.inner hmem

theorem step_mem_steps {s : String × String} (hd : d ∈ ds) (hs : step? d = some s) :
    s ∈ steps ds := List.mem_filterMap.mpr ⟨d, hd, hs⟩

theorem Place.readable (hroot : Sound root) (h : Place rootType root trail o ds) :
    ∀ s ∈ trail, IsReadable s := by
  induction h with
  | root => simp
  | member h hmem ih =>
    intro s hs
    rcases List.mem_append.mp hs with hs | hs
    · exact ih s hs
    · rw [List.mem_singleton.mp hs]
      exact (h.sound hroot).readable _ (step_mem_steps hmem rfl)

theorem Place.identity (h : Place rootType root trail o ds) :
    o.identity.toList = trailText trail := by
  induction h with
  | root => rfl
  | member _ _ ih => rw [identity_member, ih, trailText_concat]

/-- The place of the root is the only one whose owner is a root. -/
theorem Place.isRoot_eq_false_iff (h : Place rootType root trail o ds) :
    o.isRoot = false ↔ trail ≠ [] := by
  have hidentity := h.identity
  rw [Owner.isRoot, decide_eq_false_iff_not, ← String.toList_inj, hidentity]
  cases trail <;> simp [trailText, stepText]

/-- Of members of one object a step picks one. -/
theorem eq_of_step_eq (hds : Sound ds) (hd : d ∈ ds) (he : e ∈ ds) {s : String × String}
    (hs : step? d = some s) (hs' : step? e = some s) : d = e :=
  List.eq_of_nodup_filterMap hds.nodup hd he hs hs'

/-- **A trail leads to one place.** -/
theorem place_unique_of_trail (hroot : Sound root) (h : Place rootType root trail o ds) :
    ∀ {p es}, Place rootType root trail p es → o = p ∧ ds = es := by
  induction h with
  | root =>
    intro p es h'
    -- the trail is made a variable, so that the cases of the other place can be told by it
    generalize htrail : ([] : List (String × String)) = t at h'
    cases h' with
    | root => exact ⟨rfl, rfl⟩
    | member _ _ => simp at htrail
  | @member trail o ds es typeName path key old new h hmem ih =>
    intro p es' h'
    generalize htrail : trail ++ [(path, key)] = t at h'
    cases h' with
    | root => simp at htrail
    | member h' hmem' =>
      -- both places are reached from one place above, by one step
      obtain ⟨rfl, hstep⟩ := List.append_inj' htrail rfl
      obtain ⟨rfl, rfl⟩ := ih h'
      have heq := eq_of_step_eq (h.sound hroot) hmem hmem' rfl (by simpa [step?] using hstep.symm)
      cases heq
      exact ⟨rfl, rfl⟩

/-- **An owner has one place.** -/
theorem place_unique (hroot : Sound root) (h : Place rootType root trail o ds)
    (h' : Place rootType root trail' p es) (hop : o.identity = p.identity) :
    trail = trail' ∧ o = p ∧ ds = es := by
  have htext : trailText trail = trailText trail' := by rw [← h.identity, hop, h'.identity]
  obtain rfl := trailText_inj (h.readable hroot) (h'.readable hroot) htext
  exact ⟨rfl, place_unique_of_trail hroot h h'⟩

/-! ### Findings and their places -/

/-- The finding that a difference of an owner stands for, without those that hang below. -/
def head (o : Owner) : Difference → Finding
  | field change => .field o change
  | oneSided typeName path key kind value => Finding.ofMember o typeName path kind key value
  | twoSided typeName path key old new _ => .matched ⟨o, path⟩ (o.member typeName path key) old new

theorem mem_findings_iff {f : Finding} : f ∈ findings o d ↔ f = head o d ∨
    ∃ typeName path key old new es, d = twoSided typeName path key old new es
      ∧ f ∈ allFindings (o.member typeName path key) es := by
  cases d <;> simp [findings, head]

theorem mem_allFindings {f : Finding} : f ∈ allFindings o ds ↔ ∃ d ∈ ds, f ∈ findings o d := by
  rw [allFindings_eq_flatMap, List.mem_flatMap]

theorem Place.mem_allFindings_root (h : Place rootType root trail o ds) {f : Finding}
    (hf : f ∈ allFindings o ds) : f ∈ allFindings (.root rootType) root := by
  induction h with
  | root => exact hf
  | member _ hmem ih =>
    refine ih (mem_allFindings.mpr ⟨_, hmem, mem_findings_iff.mpr (Or.inr ?_)⟩)
    exact ⟨_, _, _, _, _, _, rfl, hf⟩

/-- What is found below a place belongs to a place there. -/
theorem exists_place_of_mem (hroot : Sound root) (h : Place rootType root trail o ds) {f : Finding}
    (hf : f ∈ allFindings o ds) : ∃ trail' p es, trail <+: trail' ∧
      Place rootType root trail' p es ∧ ∃ d ∈ es, f = head p d := by
  -- soundness gives the induction: the tree below a member is sound as well
  have hds := h.sound hroot
  induction hds generalizing trail o with
  | intro nodup readable isChange inner ih =>
    obtain ⟨d, hd, hfd⟩ := mem_allFindings.mp hf
    rcases mem_findings_iff.mp hfd with hhead | ⟨_, _, _, _, _, es, rfl, hfes⟩
    · exact ⟨trail, o, _, List.prefix_rfl, h, d, hd, hhead⟩
    · obtain ⟨trail', p, es, hprefix, hplace⟩ := ih hd (h.member hd) hfes
      exact ⟨trail', p, es, (List.prefix_append _ _).trans hprefix, hplace⟩

/-- **Every finding belongs to a place.** -/
theorem mem_allFindings_iff (hroot : Sound root) {f : Finding} :
    f ∈ allFindings (.root rootType) root
      ↔ ∃ trail o ds, Place rootType root trail o ds ∧ ∃ d ∈ ds, f = head o d := by
  constructor
  · intro hf
    obtain ⟨trail, o, ds, -, hplace⟩ := exists_place_of_mem hroot .root hf
    exact ⟨trail, o, ds, hplace⟩
  · rintro ⟨trail, o, ds, hplace, d, hd, rfl⟩
    exact hplace.mem_allFindings_root
      (mem_allFindings.mpr ⟨d, hd, mem_findings_iff.mpr (Or.inl rfl)⟩)

theorem Place.identity_owner_head (h : Place rootType root trail o ds) (d : Difference) :
    (head o d).owner.identity.toList = trailText (trail ++ (step? d).toList) := by
  cases d with
  | field change => rw [step?, Option.toList_none, List.append_nil]; exact h.identity
  | oneSided | twoSided =>
    rw [step?, Option.toList_some, trailText_concat, ← h.identity]
    exact identity_member ..

theorem Place.readable_owner_head (hroot : Sound root) (h : Place rootType root trail o ds)
    (hd : d ∈ ds) : ∀ s ∈ trail ++ (step? d).toList, IsReadable s := by
  intro s hs
  rcases List.mem_append.mp hs with hs | hs
  · exact h.readable hroot s hs
  · exact (h.sound hroot).readable s (step_mem_steps hd (Option.mem_toList.mp hs))

/-- The trail of what is found can be read back from the owner that it is about. -/
theorem trail_eq_of_owner_head_eq (hroot : Sound root) (h : Place rootType root trail o ds)
    (hd : d ∈ ds) (h' : Place rootType root trail' p es) (he : e ∈ es)
    (howner : (head o d).owner = (head p e).owner) :
    trail ++ (step? d).toList = trail' ++ (step? e).toList := by
  apply trailText_inj (h.readable_owner_head hroot hd) (h'.readable_owner_head hroot he)
  rw [← h.identity_owner_head d, ← h'.identity_owner_head e, howner]

/-- What two members have found about them tells them apart. -/
theorem eq_of_owner_head_eq (hroot : Sound root) (h : Place rootType root trail o ds) (hd : d ∈ ds)
    (h' : Place rootType root trail' p es) (he : e ∈ es) {s t : String × String}
    (hs : step? d = some s) (ht : step? e = some t) (howner : (head o d).owner = (head p e).owner) :
    o = p ∧ d = e := by
  have htrail := trail_eq_of_owner_head_eq hroot h hd h' he howner
  rw [hs, ht, Option.toList_some, Option.toList_some] at htrail
  obtain ⟨rfl, hst⟩ := List.append_inj' htrail rfl
  obtain ⟨rfl, rfl⟩ := place_unique_of_trail hroot h h'
  obtain rfl : s = t := by simpa using hst
  exact ⟨rfl, eq_of_step_eq (h.sound hroot) hd he hs ht⟩

/-- The place behind the step of a member belongs to the member. -/
theorem Place.eq_owner_head (hroot : Sound root) (h : Place rootType root trail o ds) (hd : d ∈ ds)
    {s : String × String} (hs : step? d = some s) (h' : Place rootType root (trail ++ [s]) p es) :
    p = (head o d).owner := by
  generalize htrail : trail ++ [s] = t at h'
  cases h' with
  | root => simp at htrail
  | member h' hmem =>
    obtain ⟨rfl, hstep⟩ := List.append_inj' htrail rfl
    obtain ⟨rfl, rfl⟩ := place_unique_of_trail hroot h h'
    obtain rfl := List.singleton_inj.mp hstep
    rw [eq_of_step_eq (h.sound hroot) hd hmem hs rfl]
    rfl

/-- What is found about a member, other than changes of its fields, is found once. -/
theorem eq_head_of_mem_about (hroot : Sound root) (h : Place rootType root trail o ds) (hd : d ∈ ds)
    {s : String × String} (hs : step? d = some s) {f : Finding}
    (hf : f ∈ Finding.about (head o d).owner (allFindings (.root rootType) root))
    (hfield : f.change? = none) : f = head o d := by
  obtain ⟨hf, howner⟩ := Finding.mem_about.mp hf
  obtain ⟨trail', p, es, hplace, e, he, rfl⟩ := (mem_allFindings_iff hroot).mp hf
  -- a finding that is no change of a field stands for a member
  have hstep : ∃ t, step? e = some t := by
    cases e with
    | field change => simp [head, Finding.change?] at hfield
    | oneSided | twoSided => exact ⟨_, rfl⟩
  obtain ⟨t, ht⟩ := hstep
  obtain ⟨rfl, rfl⟩ := eq_of_owner_head_eq hroot h hd hplace he hs ht howner.symm
  rfl

/-- A member of a place comes from a member on both sides of the place above. -/
theorem Place.exists_above (h : Place rootType root trail o ds) (hne : trail ≠ []) :
    ∃ trail' p es typeName path key old new, Place rootType root trail' p es
      ∧ twoSided typeName path key old new ds ∈ es ∧ o = p.member typeName path key := by
  cases h with
  | root => exact absurd rfl hne
  | member h hmem => exact ⟨_, _, _, _, _, _, _, _, h, hmem, rfl⟩

/-! ### Members that hold a change -/

mutual

/-- A field changed or a member came or left, here or further down. -/
def tells : Difference → Bool
  | field _ | oneSided .. => true
  | twoSided _ _ _ _ _ inner => anyTells inner

/-- One of the differences tells of a change. -/
def anyTells : List Difference → Bool
  | [] => false
  | d :: ds => tells d || anyTells ds

end

theorem anyTells_iff : anyTells ds ↔ ∃ d ∈ ds, tells d := by
  induction ds with
  | nil => simp [anyTells]
  | cons d ds ih => simp [anyTells, ih]

section HoldsChange

variable (hroot : Sound root)

include hroot

/-- A member on both sides was matched once, in the collection that it belongs to. -/
theorem lastMatch?_eq (h : Place rootType root trail o ds) {typeName path key : String}
    {old new : Json} (hmem : twoSided typeName path key old new es ∈ ds) :
    Finding.lastMatch? (allFindings (.root rootType) root) (o.member typeName path key)
      = some ⟨⟨o, path⟩, old, new⟩ := by
  have hhead : Finding.matched ⟨o, path⟩ (o.member typeName path key) old new
      ∈ allFindings (.root rootType) root :=
    (mem_allFindings_iff hroot).mpr ⟨_, _, _, h, _, hmem, rfl⟩
  unfold Finding.lastMatch?
  cases hlast : ((Finding.about (o.member typeName path key)
      (allFindings (.root rootType) root)).filterMap Finding.match?).getLast? with
  | none =>
    rw [List.getLast?_eq_none_iff, List.filterMap_eq_nil_iff] at hlast
    exact absurd (hlast _ (Finding.mem_about.mpr ⟨hhead, rfl⟩)) (by simp [Finding.match?])
  | some m =>
    obtain ⟨f, hf, hfm⟩ := List.mem_filterMap.mp (List.mem_of_getLast? hlast)
    have hfield : f.change? = none := by cases f <;> simp_all [Finding.match?, Finding.change?]
    rw [eq_head_of_mem_about hroot h hmem rfl hf hfield] at hfm
    exact hfm.symm

/-- A member on both sides neither came nor left. -/
theorem membership?_eq_none (h : Place rootType root trail o ds) {typeName path key : String}
    {old new : Json} (hmem : twoSided typeName path key old new es ∈ ds) :
    ∀ f ∈ Finding.about (o.member typeName path key) (allFindings (.root rootType) root),
      f.membership? = none := by
  intro f hf
  by_contra hne
  have hfield : f.change? = none := by cases f <;> simp_all [Finding.membership?, Finding.change?]
  rw [eq_head_of_mem_about hroot h hmem rfl hf hfield] at hne
  exact hne rfl

/-- A place below the root at which something changed holds a change. -/
theorem holdsChange_of_anyTells (h : Place rootType root trail o ds) (hne : trail ≠ [])
    (htells : anyTells ds) :
    (Correlation.ofFindings (allFindings (.root rootType) root)).HoldsChange o := by
  have hds := h.sound hroot
  -- the induction is on the tree below the place
  induction hds generalizing trail o with
  | @intro ds nodup readable isChange inner ih =>
    have hnotRoot : o.isRoot = false := h.isRoot_eq_false_iff.mpr hne
    have hfound : ∀ d ∈ ds, head o d ∈ allFindings (.root rootType) root :=
      fun d hd => (mem_allFindings_iff hroot).mpr ⟨_, _, _, h, d, hd, rfl⟩
    obtain ⟨d, hd, htell⟩ := anyTells_iff.mp htells
    cases d with
    | field change =>
      obtain ⟨_, p, es, typeName, path, key, old, new, habove, hmem, rfl⟩ := h.exists_above hne
      refine .changed (Correlation.mem_changed_ofFindings.mpr ⟨hnotRoot, Or.inr ⟨?_, ?_⟩⟩)
      · exact membership?_eq_none hroot habove hmem
      · exact ⟨_, Finding.mem_about.mpr ⟨hfound _ hd, rfl⟩, change, rfl, isChange change hd⟩
    | oneSided typeName path key kind value =>
      -- a member that came or left marks the object that it belongs to
      refine .changed (Correlation.mem_changed_ofFindings.mpr ⟨hnotRoot, Or.inl ?_⟩)
      exact ⟨_, hfound _ hd, _, rfl, rfl⟩
    | twoSided typeName path key old new es =>
      -- the change is further down, and passes up from the member
      have hbelow := ih hd (h.member hd) (by simp) htell
      refine .parent hbelow ?_ hnotRoot
      rw [Correlation.parent?_ofFindings, lastMatch?_eq hroot h hd]
      rfl

/-- **The members that hold a change are those below which something changed.** -/
theorem holdsChange_iff :
    (Correlation.ofFindings (allFindings (.root rootType) root)).HoldsChange o
      ↔ ∃ trail ds, trail ≠ [] ∧ Place rootType root trail o ds ∧ anyTells ds := by
  constructor
  · intro h
    induction h with
    | changed h =>
      obtain ⟨hnotRoot, hcase⟩ := Correlation.mem_changed_ofFindings.mp h
      rcases hcase with ⟨f, hf, m, hfm, rfl⟩ | ⟨-, f, hf, c, hfc, -⟩
      · obtain ⟨trail, o, ds, hplace, d, hd, rfl⟩ := (mem_allFindings_iff hroot).mp hf
        cases d with
        | field | twoSided => simp [head, Finding.membership?] at hfm
        | oneSided typeName path key kind value =>
          obtain rfl := Option.some.inj hfm
          refine ⟨trail, ds, hplace.isRoot_eq_false_iff.mp hnotRoot, hplace, ?_⟩
          exact anyTells_iff.mpr ⟨_, hd, rfl⟩
      · obtain ⟨hmem, rfl⟩ := Finding.mem_about.mp hf
        obtain ⟨trail, o, ds, hplace, d, hd, rfl⟩ := (mem_allFindings_iff hroot).mp hmem
        cases d with
        | oneSided | twoSided => simp [head, Finding.ofMember, Finding.change?] at hfc
        | field change =>
          refine ⟨trail, ds, hplace.isRoot_eq_false_iff.mp hnotRoot, hplace, ?_⟩
          exact anyTells_iff.mpr ⟨_, hd, rfl⟩
    | parent _ hparent hnotRoot ih =>
      -- the member has one place; the place above it belongs to the parent
      obtain ⟨trail, ds, hne, hplace, htells⟩ := ih
      obtain ⟨trail', p, es, typeName, path, key, old, new, habove, hmem, rfl⟩ :=
        hplace.exists_above hne
      rw [Correlation.parent?_ofFindings, lastMatch?_eq hroot habove hmem] at hparent
      obtain rfl := Option.some.inj hparent
      refine ⟨trail', es, habove.isRoot_eq_false_iff.mp hnotRoot, habove, ?_⟩
      exact anyTells_iff.mpr ⟨_, hmem, htells⟩
  · rintro ⟨trail, ds, hne, hplace, htells⟩
    exact holdsChange_of_anyTells hroot hplace hne htells

end HoldsChange

end Difference

end SnapshotDiff
