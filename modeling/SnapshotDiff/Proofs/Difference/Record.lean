import SnapshotDiff.Proofs.Difference.Places

/-!
# The record of a tree of differences

Findings are grouped by owner, and the record is read from the groups in the order in which their
owners were found.  If the findings are those of a tree, that order is the order of the tree: the
group of a member of the root is opened where the member stands, and all other groups contribute
nothing to the collections of the root.

## Main definitions

* `Difference.change?`, `Difference.items` — what a difference contributes to the record.

## Main results

* `Difference.record?_eq` — the record, read from the tree.
-/

namespace SnapshotDiff

open Correlation (groupOf itemsOf)

namespace Difference

variable {rootType : String} {root ds es : List Difference} {trail : List (String × String)}
  {o : Owner} {d : Difference} {s : String × String}

/-- The change of a field. -/
def change? : Difference → Option FieldChange
  | field change => some change
  | _ => none

/-- The change of a member with the path of its collection.  A member on both sides is modified if
something changed below it. -/
def items : Difference → List (String × ItemChange)
  | oneSided _ path _ .removed value => [(path, .removed value)]
  | oneSided _ path _ .added value => [(path, .added value)]
  | twoSided _ path _ old new inner => if anyTells inner then [(path, .modified old new)] else []
  | _ => []

/-! ### The blocks of the members of the root -/

/-- The findings of a difference of the root have trails that begin with its step. -/
theorem exists_trail_of_mem_findings (hroot : Sound root) (hd : d ∈ root) {f : Finding}
    (hf : f ∈ findings (.root rootType) d) : ∃ trail o ds, Place rootType root trail o ds
      ∧ ∃ e ∈ ds, f = head o e ∧ (trail ++ (step? e).toList).head? = step? d := by
  rcases mem_findings_iff.mp hf with hhead | ⟨_, path, key, _, _, es, rfl, hfes⟩
  · exact ⟨[], _, root, .root, d, hd, hhead, by cases step? d <;> rfl⟩
  · obtain ⟨trail, o, ds, hprefix, hplace, e, he, hhead⟩ :=
      exists_place_of_mem hroot (Place.root.member hd) hfes
    obtain ⟨rest, rfl⟩ := hprefix
    exact ⟨_, o, ds, hplace, e, he, hhead, rfl⟩

/-- Differences of the root with a common owner have a common step. -/
theorem step?_eq_of_owner_eq (hroot : Sound root) {e : Difference} (hd : d ∈ root) (he : e ∈ root)
    {f g : Finding} (hf : f ∈ findings (.root rootType) d) (hg : g ∈ findings (.root rootType) e)
    (howner : f.owner = g.owner) : step? d = step? e := by
  obtain ⟨trail, o, ds, hplace, c, hc, rfl, hhead⟩ := exists_trail_of_mem_findings hroot hd hf
  obtain ⟨trail', p, es, hplace', c', hc', rfl, hhead'⟩ :=
    exists_trail_of_mem_findings hroot he hg
  rw [← hhead, ← hhead', trail_eq_of_owner_head_eq hroot hplace hc hplace' hc' howner]

/-- What only a member of one step contributes is what that member contributes. -/
theorem flatMap_eq_of_step {β : Type} (hroot : Sound root) (hd : d ∈ root) (hs : step? d = some s)
    {g : Difference → List β} (h : ∀ e ∈ root, step? e ≠ some s → g e = []) :
    root.flatMap g = g d := by
  obtain ⟨before, after, rfl⟩ := List.append_of_mem hd
  have hnodup : (steps (before ++ d :: after)).Nodup := hroot.nodup
  rw [steps, List.filterMap_append, List.filterMap_cons_some hs, List.nodup_append] at hnodup
  obtain ⟨-, hafter, hbefore⟩ := hnodup
  -- the step occurs once, so on neither side of the member
  have hnotBefore : ∀ e ∈ before, g e = [] := by
    refine fun e he => h e (List.mem_append_left _ he) fun hes => ?_
    exact hbefore s (List.mem_filterMap.mpr ⟨e, he, hes⟩) s List.mem_cons_self rfl
  have hnotAfter : ∀ e ∈ after, g e = [] := by
    refine fun e he => h e (List.mem_append_right _ (List.mem_cons_of_mem _ he)) fun hes => ?_
    exact (List.nodup_cons.mp hafter).1 (List.mem_filterMap.mpr ⟨e, he, hes⟩)
  rw [List.flatMap_append, List.flatMap_cons, List.flatMap_eq_nil_iff.mpr hnotBefore,
    List.flatMap_eq_nil_iff.mpr hnotAfter, List.nil_append, List.append_nil]

/-- The findings about a member of the root are found where the member stands. -/
theorem about_member (hroot : Sound root) (hd : d ∈ root) (hs : step? d = some s) :
    Finding.about (head (.root rootType) d).owner (allFindings (.root rootType) root)
      = Finding.about (head (.root rootType) d).owner (findings (.root rootType) d) := by
  rw [Finding.about, allFindings_eq_flatMap, List.filter_flatMap]
  refine flatMap_eq_of_step hroot hd hs fun e he hes => ?_
  refine List.filter_eq_nil_iff.mpr fun f hf howner => hes ?_
  rw [← hs]
  have hhead : head (.root rootType) d ∈ findings (.root rootType) d :=
    mem_findings_iff.mpr (Or.inl rfl)
  exact step?_eq_of_owner_eq hroot he hd hf hhead (of_decide_eq_true howner)

/-! ### The fields of the root -/

/-- What is found about the root is found at the root. -/
theorem eq_field_of_isRoot (hroot : Sound root) {f : Finding}
    (hf : f ∈ allFindings (.root rootType) root) (howner : f.owner.isRoot) :
    f.owner = .root rootType := by
  obtain ⟨trail, o, ds, hplace, d, hd, rfl⟩ := (mem_allFindings_iff hroot).mp hf
  cases d with
  | field change =>
    -- a change of a field belongs to the object at its place, which is the root only at the root
    cases hplace with
    | root => rfl
    | member h hmem =>
      have hnot := (h.member hmem).isRoot_eq_false_iff.mpr (by simp)
      exact absurd (hnot.symm.trans howner) (by decide)
  | oneSided typeName path key | twoSided typeName path key =>
    -- the identity of a member is never empty
    have hidentity := identity_member o typeName path key
    rw [Owner.isRoot, decide_eq_true_iff, ← String.toList_inj] at howner
    have hempty := hidentity.symm.trans howner
    simp [stepText] at hempty

/-- Below a member nothing is found about the root. -/
theorem about_root_findings (hroot : Sound root) (hd : d ∈ root) :
    (Finding.about (.root rootType) (findings (.root rootType) d)).filterMap Finding.change?
      = (change? d).toList := by
  cases hstep : step? d with
  | none =>
    cases d with
    | field change => simp [Finding.about, findings, Finding.owner, Finding.change?, change?]
    | oneSided | twoSided => simp [step?] at hstep
  | some s =>
    -- the trail of what is found below a member has its step, and so its owner an identity
    have hnone : Finding.about (.root rootType) (findings (.root rootType) d) = [] := by
      apply List.filter_eq_nil_iff.mpr
      intro f hf howner
      obtain ⟨trail, o, ds, hplace, e, he, rfl, hhead⟩ := exists_trail_of_mem_findings hroot hd hf
      have hidentity := hplace.identity_owner_head e
      rw [of_decide_eq_true howner] at hidentity
      cases htrail : trail ++ (step? e).toList with
      | nil => rw [htrail, hstep] at hhead; simp at hhead
      | cons t rest => rw [htrail] at hidentity; simp [trailText, stepText, Owner.root] at hidentity
    rw [hnone]
    cases d <;> simp [step?, change?] at hstep ⊢

theorem fieldChanges_eq (hroot : Sound root) :
    (Correlation.ofFindings (allFindings (.root rootType) root)).fieldChanges
      = root.filterMap change? := by
  have hblocks : (Finding.about (.root rootType) (allFindings (.root rootType) root)).filterMap
      Finding.change? = root.filterMap change? := by
    rw [Finding.about, allFindings_eq_flatMap, List.filter_flatMap, List.filterMap_flatMap,
      List.filterMap_eq_flatMap_toList]
    exact List.flatMap_congr fun d hd => about_root_findings hroot hd
  rw [Correlation.fieldChanges_ofFindings rfl fun f hf => eq_field_of_isRoot hroot hf, hblocks]
  apply List.filter_eq_self.mpr
  intro c hc
  obtain ⟨d, hd, hchange⟩ := List.mem_filterMap.mp hc
  cases d <;> simp only [change?, Option.some.injEq, reduceCtorEq] at hchange
  exact hroot.isChange c (hchange ▸ hd)

/-! ### The collections of the root -/

/-- A group contributes nothing if no collection that its object belongs to is one of the root. -/
theorem itemsOf_eq_nil {fs : List Finding} {dirty : List Owner}
    (hmember : ∀ f ∈ Finding.about o fs, ∀ m, f.membership? = some m → m.site.owner.isRoot = false)
    (hmatch : ∀ f ∈ Finding.about o fs, ∀ m, f.match? = some m → m.site.owner.isRoot = false) :
    itemsOf dirty o (groupOf fs o) = [] := by
  unfold itemsOf
  split
  · have hnone : (groupOf fs o).memberships.filter (·.site.owner.isRoot) = [] := by
      apply List.filter_eq_nil_iff.mpr
      intro m hm
      obtain ⟨f, hf, hfm⟩ := List.mem_filterMap.mp hm
      simp [hmember f hf m hfm]
    rw [hnone, List.filterMap_nil]
  · split
    · next m hm =>
      obtain ⟨f, hf, hfm⟩ := List.mem_filterMap.mp (List.mem_of_getLast? hm)
      rw [hmatch f hf m hfm]
      rfl
    · rfl

/-- An owner that is not a member of the root contributes nothing. -/
theorem itemsOf_eq_nil_of_trail (hroot : Sound root) {dirty : List Owner}
    (hplace : Place rootType root trail o ds) (hd : d ∈ ds)
    (hlength : (trail ++ (step? d).toList).length ≠ 1) :
    itemsOf dirty (head o d).owner
      (groupOf (allFindings (.root rootType) root) (head o d).owner) = [] := by
  -- what is about this owner hangs where its trail says, and that is not at the root
  have hsite : ∀ f ∈ Finding.about (head o d).owner (allFindings (.root rootType) root),
      ∀ trail' p es, Place rootType root trail' p es → ∀ e ∈ es, f = head p e →
        step? e ≠ none → p.isRoot = false := by
    rintro f hf trail' p es hplace' e he rfl hstep
    refine hplace'.isRoot_eq_false_iff.mpr fun hnil => hlength ?_
    rw [trail_eq_of_owner_head_eq hroot hplace hd hplace' he (Finding.mem_about.mp hf).2.symm, hnil]
    obtain ⟨t, ht⟩ := Option.ne_none_iff_exists'.mp hstep
    rw [ht]
    rfl
  refine itemsOf_eq_nil (fun f hf m hm => ?_) fun f hf m hm => ?_
  · obtain ⟨trail', p, es, hplace', e, he, hhead⟩ :=
      (mem_allFindings_iff hroot).mp (Finding.mem_about.mp hf).1
    have hnot := hsite f hf trail' p es hplace' e he hhead
    subst hhead
    cases e <;> simp only [head, Finding.ofMember, Finding.membership?, Option.some.injEq,
      reduceCtorEq] at hm
    exact hm ▸ hnot (by simp [step?])
  · obtain ⟨trail', p, es, hplace', e, he, hhead⟩ :=
      (mem_allFindings_iff hroot).mp (Finding.mem_about.mp hf).1
    have hnot := hsite f hf trail' p es hplace' e he hhead
    subst hhead
    cases e <;> simp only [head, Finding.ofMember, Finding.match?, Option.some.injEq,
      reduceCtorEq] at hm
    exact hm ▸ hnot (by simp [step?])

/-- The group of a member of the root contributes the change of the member. -/
theorem itemsOf_member (hroot : Sound root) (hd : d ∈ root) (hs : step? d = some s) :
    itemsOf (Correlation.ofFindings (allFindings (.root rootType) root)).dirty
      (head (.root rootType) d).owner
      (groupOf (allFindings (.root rootType) root) (head (.root rootType) d).owner) = items d := by
  cases d with
  | field change => simp [step?] at hs
  | oneSided typeName path key kind value =>
    have hgroup : (groupOf (allFindings (.root rootType) root)
        (head (.root rootType) (oneSided typeName path key kind value)).owner).memberships
          = [⟨⟨.root rootType, path⟩, kind, value⟩] := by
      rw [groupOf, Group.ofFindings, about_member hroot hd hs]
      simp [findings, head, Finding.about, Finding.ofMember, Finding.owner, Finding.membership?]
    rw [itemsOf, Group.isMembership, hgroup]
    cases kind <;> rfl
  | twoSided typeName path key old new es =>
    have hplace : Place rootType root [(path, key)] ((Owner.root rootType).member typeName path key)
        es := Place.root.member hd
    have hnot : (groupOf (allFindings (.root rootType) root)
        ((Owner.root rootType).member typeName path key)).isMembership = false := by
      rw [← Bool.not_eq_true, Correlation.isMembership_groupOf]
      rintro ⟨f, hf, hsome⟩
      rw [membership?_eq_none hroot .root hd f hf] at hsome
      exact absurd hsome (by decide)
    have hmatched : (groupOf (allFindings (.root rootType) root)
        ((Owner.root rootType).member typeName path key)).matched
          = some ⟨⟨.root rootType, path⟩, old, new⟩ := lastMatch?_eq hroot .root hd
    -- the member is marked as changed if and only if something below it tells of a change
    have hdirty : ((Owner.root rootType).member typeName path key)
        ∈ (Correlation.ofFindings (allFindings (.root rootType) root)).dirty ↔ anyTells es := by
      rw [Correlation.mem_dirty_iff, holdsChange_iff hroot]
      constructor
      · rintro ⟨trail, ds, -, hplace', htells⟩
        obtain ⟨-, -, rfl⟩ := place_unique hroot hplace hplace' rfl
        exact htells
      · exact fun htells => ⟨_, es, by simp, hplace, htells⟩
    have hself : (head (.root rootType) (twoSided typeName path key old new es)).owner
        = (Owner.root rootType).member typeName path key := rfl
    rw [hself, itemsOf, hnot, hmatched, items]
    by_cases htells : anyTells es
    · simp [htells, hdirty]
    · simp [htells, hdirty]

/-- A difference of the root contributes one change at most, which is that of the member itself. -/
theorem flatMap_itemsOf_findings (hroot : Sound root) (hd : d ∈ root) :
    (((findings (.root rootType) d).map Finding.owner).eraseDups.flatMap fun p =>
      itemsOf (Correlation.ofFindings (allFindings (.root rootType) root)).dirty p
        (groupOf (allFindings (.root rootType) root) p)) = items d := by
  cases hs : step? d with
  | none =>
    cases d with
    | oneSided | twoSided => simp [step?] at hs
    | field change =>
      have hone : ((findings (.root rootType) (field change)).map Finding.owner).eraseDups
          = [(head (.root rootType) (field change)).owner] := rfl
      rw [hone, List.flatMap_singleton]
      exact itemsOf_eq_nil_of_trail hroot .root hd (by simp [step?])
  | some s =>
    rw [← @itemsOf_member rootType root d s hroot hd hs]
    -- of the owners below the member only the member itself contributes
    have hself : (head (.root rootType) d).owner
        ∈ ((findings (.root rootType) d).map Finding.owner).eraseDups :=
      List.mem_eraseDups.mpr (List.mem_map_of_mem (mem_findings_iff.mpr (Or.inl rfl)))
    rw [List.flatMap_eq_of_nodup (List.nodup_eraseDups _) (a := (head (.root rootType) d).owner),
      if_pos hself]
    intro p hp hne
    obtain ⟨f, hf, rfl⟩ := List.mem_map.mp (List.mem_eraseDups.mp hp)
    obtain ⟨trail, o, ds, hplace, e, he, rfl, hhead⟩ := exists_trail_of_mem_findings hroot hd hf
    refine itemsOf_eq_nil_of_trail hroot hplace he fun hlength => hne ?_
    -- a trail of one step leads to the member itself
    obtain ⟨t, ht⟩ := List.length_eq_one_iff.mp hlength
    rw [ht, hs, List.head?_cons, Option.some.injEq] at hhead
    subst hhead
    cases hstep : step? e with
    | none =>
      -- the change of a field of the member is about the member
      rw [hstep, Option.toList_none, List.append_nil] at ht
      subst ht
      cases e with
      | field change => exact Place.eq_owner_head hroot .root hd hs hplace
      | oneSided | twoSided => simp [step?] at hstep
    | some u =>
      -- a member of the root with the same step is the same member
      rw [hstep, Option.toList_some] at ht
      obtain ⟨rfl, hu⟩ := List.append_inj' (ht.trans (List.nil_append _).symm) rfl
      obtain rfl := List.singleton_inj.mp hu
      obtain ⟨rfl, rfl⟩ := place_unique_of_trail hroot .root hplace
      rw [eq_of_step_eq hroot hd he hs hstep]

theorem collectionChanges_eq (hroot : Sound root) :
    (Correlation.ofFindings (allFindings (.root rootType) root)).collectionChanges
      = (root.flatMap items).foldl (fun cs i => CollectionChange.pushTo i.1 i.2 cs) [] := by
  have howners : (allFindings (.root rootType) root).map Finding.owner
      = root.flatMap fun d => (findings (.root rootType) d).map Finding.owner := by
    rw [allFindings_eq_flatMap, List.map_flatMap]
  -- two differences of the root have no owner in common but the root itself
  have hshared : root.Pairwise fun d e =>
      ∀ p ∈ (findings (.root rootType) d).map Finding.owner,
        p ∈ (findings (.root rootType) e).map Finding.owner →
          itemsOf (Correlation.ofFindings (allFindings (.root rootType) root)).dirty p
            (groupOf (allFindings (.root rootType) root) p) = [] := by
    have hsteps := hroot.nodup
    rw [steps, List.nodup_iff_pairwise_ne, List.pairwise_filterMap] at hsteps
    refine hsteps.imp_of_mem fun {d e} hd he hne => ?_
    intro p hp hp'
    obtain ⟨f, hf, rfl⟩ := List.mem_map.mp hp
    obtain ⟨g, hg, hgf⟩ := List.mem_map.mp hp'
    have hstep := step?_eq_of_owner_eq hroot hd he hf hg hgf.symm
    cases hs : step? d with
    | some s => exact absurd rfl (hne s hs s (hstep.symm.trans hs))
    | none =>
      cases d with
      | oneSided | twoSided => simp [step?] at hs
      | field change =>
        have hhead : f = head (.root rootType) (field change) := List.mem_singleton.mp hf
        rw [hhead]
        exact itemsOf_eq_nil_of_trail hroot .root hd (by simp [step?])
  unfold Correlation.collectionChanges
  dsimp only
  congr 1
  rw [Correlation.flatMap_itemsOf, howners, List.flatMap_eraseDups_flatMap hshared]
  exact List.flatMap_congr fun d hd => flatMap_itemsOf_findings hroot hd

/-- **The record of a tree of differences**: fields and members of the root, in the order of the
tree. -/
theorem record?_eq (hroot : Sound root) :
    (Correlation.ofFindings (allFindings (.root rootType) root)).record?
      = ChangeRecord.of? (root.filterMap change?)
        ((root.flatMap items).foldl (fun cs i => CollectionChange.pushTo i.1 i.2 cs) []) := by
  rw [Correlation.record?, fieldChanges_eq hroot, collectionChanges_eq hroot]

end Difference

end SnapshotDiff
