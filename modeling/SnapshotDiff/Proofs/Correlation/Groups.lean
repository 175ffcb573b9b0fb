import SnapshotDiff.Correlation
import SnapshotDiff.Proofs.List.Distinct
import SnapshotDiff.Proofs.Table

/-!
# The groups of a list of findings

Findings are put into groups one after the other.  What comes out can be read off the list as a
whole: there is one group for every object that some finding is about, in the order in which these
objects occur first, and it holds what the findings about its object say, in their order.

## Main definitions

* `Finding.about` — the findings about an object.
* `Group.ofFindings` — the group of some findings.
* `Finding.lastMatch?` — the last match of an object.

## Main results

* `Correlation.groups_ofFindings` — the groups of a list of findings.
* `Correlation.get?_ofFindings`, `Correlation.parent?_ofFindings` — what is found under an object.
* `Correlation.mem_changed_iff`, `Correlation.mem_changed_ofFindings` — the members at which a change
  was found, by groups and by findings.
-/

namespace SnapshotDiff

namespace Finding

/-- The change of a field. -/
def change? : Finding → Option FieldChange
  | field _ change => some change
  | _ => none

/-- What came or left. -/
def membership? : Finding → Option Membership
  | member site _ kind value => some ⟨site, kind, value⟩
  | _ => none

/-- What is there on both sides. -/
def match? : Finding → Option Match
  | matched site _ old new => some ⟨site, old, new⟩
  | _ => none

/-- The findings about an object. -/
def about (o : Owner) (fs : List Finding) : List Finding := fs.filter (·.owner = o)

/-- The last match of an object. -/
def lastMatch? (fs : List Finding) (o : Owner) : Option Match :=
  ((about o fs).filterMap match?).getLast?

variable {fs : List Finding} {f : Finding} {o : Owner}

theorem mem_about : f ∈ about o fs ↔ f ∈ fs ∧ f.owner = o := by
  rw [about, List.mem_filter, decide_eq_true_iff]

theorem about_concat (fs : List Finding) (f : Finding) (o : Owner) :
    about o (fs ++ [f]) = if f.owner = o then about o fs ++ [f] else about o fs := by
  rw [about, about, List.filter_append]
  split <;> simp [*]

theorem about_eq_nil_iff : about o fs = [] ↔ o ∉ fs.map owner := by
  rw [about, List.filter_eq_nil_iff, List.mem_map]
  constructor
  · rintro h ⟨f, hf, ho⟩
    exact h f hf (decide_eq_true ho)
  · intro h f hf ho
    exact h ⟨f, hf, of_decide_eq_true ho⟩

end Finding

open Finding

namespace Group

/-- The group of some findings, the first of which is at place `i` among all findings. -/
def ofFindings (i : Nat) (fs : List Finding) : Group where
  firstSeen := i
  fields := fs.filterMap change?
  memberships := fs.filterMap membership?
  matched := (fs.filterMap match?).getLast?

/-- One more finding is added at the end of what the group holds. -/
theorem ofFindings_concat (i : Nat) (fs : List Finding) (f : Finding) :
    ofFindings i (fs ++ [f]) = (ofFindings i fs).add f := by
  cases f <;> simp [ofFindings, add, Finding.change?, membership?, match?]

end Group

namespace Correlation

variable {fs : List Finding} {o : Owner}

/-- The group of an object among the findings. -/
def groupOf (fs : List Finding) (o : Owner) : Group :=
  .ofFindings (fs.findIdx (·.owner = o)) (about o fs)

/-! ### One more finding -/

theorem addAll_concat (gs : List (Owner × Group)) (i : Nat) (fs : List Finding) (f : Finding) :
    addAll gs i (fs ++ [f]) = add (i + fs.length) f (addAll gs i fs) := by
  induction fs generalizing gs i with
  | nil => rfl
  | cons g fs ih =>
    rw [List.cons_append, addAll, ih, addAll, List.length_cons]
    congr 1
    omega

/-- A finding about an object that has a group yet changes this group only. -/
theorem add_map_of_mem (i : Nat) (f : Finding) (g : Owner → Group) {os : List Owner}
    (hos : os.Nodup) (h : f.owner ∈ os) :
    add i f (os.map fun o => (o, g o))
      = os.map fun o => (o, if f.owner = o then (g o).add f else g o) := by
  induction os with
  | nil => exact absurd h List.not_mem_nil
  | cons o os ih =>
    obtain ⟨ho, hos⟩ := List.nodup_cons.mp hos
    rw [List.map_cons, List.map_cons, add]
    by_cases hof : o = f.owner
    · have hrest : ∀ p ∈ os, f.owner ≠ p := by
        rintro p hp rfl
        exact ho (hof ▸ hp)
      rw [if_pos hof, if_pos hof.symm]
      congr 1
      exact List.map_congr_left fun p hp => by rw [if_neg (hrest p hp)]
    · rw [if_neg hof, if_neg (Ne.symm hof), ih hos]
      exact (List.mem_cons.mp h).resolve_left (Ne.symm hof)

/-- A finding about an object without a group opens one. -/
theorem add_map_of_notMem (i : Nat) (f : Finding) (g : Owner → Group) {os : List Owner}
    (h : f.owner ∉ os) :
    add i f (os.map fun o => (o, g o))
      = os.map (fun o => (o, g o)) ++ [(f.owner, Group.ofFindings i [f])] := by
  induction os with
  | nil =>
    have hadd := Group.ofFindings_concat i [] f
    rw [List.nil_append] at hadd
    rw [hadd]
    rfl
  | cons o os ih =>
    obtain ⟨ho, hos⟩ := not_or.mp (mt List.mem_cons.mpr h)
    rw [List.map_cons, add, if_neg (Ne.symm ho), ih hos, List.cons_append]

theorem findIdx_concat_of_mem {fs : List Finding} {o : Owner} (h : o ∈ fs.map owner)
    (f : Finding) :
    (fs ++ [f]).findIdx (·.owner = o) = fs.findIdx (·.owner = o) := by
  obtain ⟨e, he, rfl⟩ := List.mem_map.mp h
  rw [List.findIdx_append, if_pos]
  exact List.findIdx_lt_length_of_exists ⟨e, he, decide_eq_true rfl⟩

/-- **The groups of a list of findings**: one for each object, in the order of first occurrence. -/
theorem groups_ofFindings (fs : List Finding) :
    (ofFindings fs).groups = (fs.map owner).eraseDups.map fun o => (o, groupOf fs o) := by
  show addAll [] 0 fs = _
  -- the findings are added at the end, so the induction takes them from there
  induction fs using List.reverseRecOn with
  | nil => rfl
  | append_singleton fs f ih =>
    -- a group that is there gets the finding if it is about its object, and keeps its place
    have hold : ∀ o ∈ (fs.map owner).eraseDups, groupOf (fs ++ [f]) o
        = if f.owner = o then (groupOf fs o).add f else groupOf fs o := by
      intro o ho
      rw [groupOf, findIdx_concat_of_mem (List.mem_eraseDups.mp ho), about_concat]
      split
      · exact Group.ofFindings_concat _ _ _
      · rfl
    rw [addAll_concat, ih, List.map_append, List.map_singleton, List.eraseDups_concat]
    by_cases hf : f.owner ∈ fs.map owner
    · rw [if_pos hf, add_map_of_mem _ _ _ (List.nodup_eraseDups _) (List.mem_eraseDups.mpr hf)]
      exact List.map_congr_left fun o ho => by rw [hold o ho]
    · have hne : ∀ o ∈ (fs.map owner).eraseDups, f.owner ≠ o := by
        rintro o ho rfl
        exact hf (List.mem_eraseDups.mp ho)
      -- a new group has this finding only, and its place is the end
      have hnew : groupOf (fs ++ [f]) f.owner = .ofFindings (0 + fs.length) [f] := by
        have hidx : fs.findIdx (·.owner = f.owner) = fs.length := by
          refine List.findIdx_eq_length_of_false fun e he => decide_eq_false fun heq => ?_
          exact hf (List.mem_map.mpr ⟨e, he, heq⟩)
        rw [groupOf, about_concat, if_pos rfl, about_eq_nil_iff.mpr hf, List.findIdx_append, hidx]
        simp
      rw [if_neg hf, add_map_of_notMem _ _ _ (mt List.mem_eraseDups.mp hf), List.map_append,
        List.map_singleton, hnew]
      congr 1
      exact List.map_congr_left fun o ho => by rw [hold o ho, if_neg (hne o ho)]

theorem mem_groups_iff {g : Group} :
    (o, g) ∈ (ofFindings fs).groups ↔ o ∈ fs.map owner ∧ g = groupOf fs o := by
  rw [groups_ofFindings, List.mem_map]
  constructor
  · rintro ⟨p, hp, heq⟩
    obtain ⟨rfl, rfl⟩ := Prod.mk.inj heq
    exact ⟨List.mem_eraseDups.mp hp, rfl⟩
  · rintro ⟨ho, rfl⟩
    exact ⟨o, List.mem_eraseDups.mpr ho, rfl⟩

/-! ### What is found under an object -/

theorem get?_ofFindings (fs : List Finding) (o : Owner) :
    (ofFindings fs).get? o = if o ∈ fs.map owner then some (groupOf fs o) else none := by
  rw [get?, groups_ofFindings]
  have hlookup : ∀ os : List Owner,
      (os.map fun o => (o, groupOf fs o)).lookup o
        = if o ∈ os then some (groupOf fs o) else none := by
    intro os
    induction os with
    | nil => rfl
    | cons p os ih =>
      rw [List.map_cons, List.lookup_cons, ih]
      by_cases h : o = p
      · simp [h]
      · simp [h, beq_false_of_ne h]
  rw [hlookup]
  simp only [List.mem_eraseDups]

/-- The parent of an object is where it was matched last. -/
theorem parent?_ofFindings (fs : List Finding) (o : Owner) :
    (ofFindings fs).parent? o = (lastMatch? fs o).map (·.site.owner) := by
  rw [parent?, get?_ofFindings]
  split
  · rfl
  · next h => rw [lastMatch?, about_eq_nil_iff.mpr h]; rfl

theorem isMembership_groupOf :
    (groupOf fs o).isMembership ↔ ∃ f ∈ about o fs, f.membership?.isSome := by
  rw [Group.isMembership, Bool.not_eq_true', List.isEmpty_eq_false_iff_exists_mem]
  constructor
  · rintro ⟨m, hm⟩
    obtain ⟨f, hf, hfm⟩ := List.mem_filterMap.mp hm
    exact ⟨f, hf, hfm ▸ rfl⟩
  · rintro ⟨f, hf, hsome⟩
    obtain ⟨m, hm⟩ := Option.isSome_iff_exists.mp hsome
    exact ⟨m, List.mem_filterMap.mpr ⟨f, hf, hm⟩⟩

/-- The members at which a change was found, group by group. -/
theorem mem_changed_iff {c : Correlation} : o ∈ c.changed ↔ o.isRoot = false ∧
    ((∃ p g, (p, g) ∈ c.groups ∧ ∃ m ∈ g.memberships, m.site.owner = o)
      ∨ ∃ g, (o, g) ∈ c.groups ∧ g.memberships = []
        ∧ ∃ change ∈ g.fields, change.kind ≠ .nothing) := by
  have hmembership : ∀ g : Group, g.isMembership = true ↔ g.memberships ≠ [] := by
    simp [Group.isMembership]
  have hfields : ∀ g : Group, g.hasFieldChanges = true
      ↔ ∃ change ∈ g.fields, change.kind ≠ .nothing := by
    simp [Group.hasFieldChanges, ChangeKind.isChange]
  rw [changed, List.mem_flatMap]
  constructor
  · rintro ⟨⟨p, g⟩, hg, ho⟩
    dsimp only at ho
    split at ho
    · obtain ⟨ho, hroot⟩ := List.mem_filter.mp ho
      obtain ⟨m, hm, rfl⟩ := List.mem_map.mp ho
      exact ⟨by simpa using hroot, Or.inl ⟨p, g, hg, m, hm, rfl⟩⟩
    · next hnot =>
      split at ho
      · next hchange =>
        obtain rfl := List.mem_singleton.mp ho
        rw [Bool.and_eq_true, Bool.not_eq_true', hfields] at hchange
        rw [hmembership, not_not] at hnot
        exact ⟨hchange.1, Or.inr ⟨g, hg, hnot, hchange.2⟩⟩
      · exact absurd ho List.not_mem_nil
  · rintro ⟨hroot, ⟨p, g, hg, m, hm, rfl⟩ | ⟨g, hg, hnil, hchange⟩⟩
    · refine ⟨(p, g), hg, ?_⟩
      dsimp only
      rw [if_pos ((hmembership g).mpr (List.ne_nil_of_mem hm))]
      exact List.mem_filter.mpr ⟨List.mem_map_of_mem hm, by simpa using hroot⟩
    · refine ⟨(o, g), hg, ?_⟩
      dsimp only
      rw [if_neg (by simp [hmembership, hnil]), hroot, (hfields g).mpr hchange]
      exact List.mem_singleton_self o

/-- **The members at which a change was found**: something came to one of their collections or left
it, or one of their fields changed and they did not themselves come or leave. -/
theorem mem_changed_ofFindings : o ∈ (ofFindings fs).changed ↔ o.isRoot = false ∧
    ((∃ f ∈ fs, ∃ m, f.membership? = some m ∧ m.site.owner = o) ∨
      ((∀ f ∈ about o fs, f.membership? = none) ∧
        ∃ f ∈ about o fs, ∃ c, f.change? = some c ∧ c.kind.isChange)) := by
  rw [mem_changed_iff]
  refine and_congr_right fun _ => or_congr ?_ ?_
  · constructor
    · rintro ⟨p, g, hg, m, hm, ho⟩
      obtain ⟨-, rfl⟩ := mem_groups_iff.mp hg
      obtain ⟨f, hf, hfm⟩ := List.mem_filterMap.mp hm
      exact ⟨f, (mem_about.mp hf).1, m, hfm, ho⟩
    · rintro ⟨f, hf, m, hfm, ho⟩
      refine ⟨f.owner, _, mem_groups_iff.mpr ⟨List.mem_map_of_mem hf, rfl⟩, m, ?_, ho⟩
      exact List.mem_filterMap.mpr ⟨f, mem_about.mpr ⟨hf, rfl⟩, hfm⟩
  · constructor
    · rintro ⟨g, hg, hnil, change, hchange, hkind⟩
      obtain ⟨-, rfl⟩ := mem_groups_iff.mp hg
      obtain ⟨f, hf, hfc⟩ := List.mem_filterMap.mp hchange
      exact ⟨List.filterMap_eq_nil_iff.mp hnil, f, hf, change, hfc, decide_eq_true hkind⟩
    · rintro ⟨hnone, f, hf, change, hfc, hkind⟩
      obtain ⟨hmem, rfl⟩ := mem_about.mp hf
      refine ⟨_, mem_groups_iff.mpr ⟨List.mem_map_of_mem hmem, rfl⟩,
        List.filterMap_eq_nil_iff.mpr hnone, change, ?_, of_decide_eq_true hkind⟩
      exact List.mem_filterMap.mpr ⟨f, hf, hfc⟩

/-! ### The record -/

/-- What the groups contribute to the collections of the root, group by group. -/
theorem flatMap_itemsOf (fs : List Finding) (dirty : List Owner) :
    ((ofFindings fs).groups.flatMap fun e => itemsOf dirty e.1 e.2)
      = (fs.map owner).eraseDups.flatMap fun o => itemsOf dirty o (groupOf fs o) := by
  rw [groups_ofFindings, List.flatMap_map]

/-- If there is one root, the changes of its fields are those that were found, in their order. -/
theorem fieldChanges_ofFindings {root : Owner} (hroot : root.isRoot)
    (h : ∀ f ∈ fs, f.owner.isRoot → f.owner = root) :
    (ofFindings fs).fieldChanges
      = ((about root fs).filterMap change?).filter (·.kind.isChange) := by
  -- groups of other objects have no part in the changes of the root
  have hother : ∀ o ∈ (fs.map owner).eraseDups, o ≠ root →
      (if o.isRoot then (groupOf fs o).fields.filter (·.kind.isChange) else []) = [] := by
    intro o ho hne
    obtain ⟨f, hf, rfl⟩ := List.mem_map.mp (List.mem_eraseDups.mp ho)
    exact if_neg fun hr => hne (h f hf hr)
  rw [fieldChanges, groups_ofFindings, List.flatMap_map]
  rw [List.flatMap_eq_of_nodup (List.nodup_eraseDups _) hother, if_pos hroot]
  split
  · rfl
  · next hmem => rw [about_eq_nil_iff.mpr (mt List.mem_eraseDups.mpr hmem)]; rfl

/-- A change that is found on a field of the root is in the record. -/
theorem exists_record?_of_mem {c : FieldChange} (hroot : o.isRoot)
    (hc : c.kind.isChange) (h : Finding.field o c ∈ fs) :
    ∃ r, (ofFindings fs).record? = some r ∧ c ∈ r.fields := by
  have hmem : c ∈ (ofFindings fs).fieldChanges := by
    rw [fieldChanges, groups_ofFindings, List.flatMap_map, List.mem_flatMap]
    refine ⟨o, List.mem_eraseDups.mpr (List.mem_map.mpr ⟨_, h, rfl⟩), ?_⟩
    dsimp only
    rw [if_pos hroot, List.mem_filter]
    exact ⟨List.mem_filterMap.mpr ⟨_, Finding.mem_about.mpr ⟨h, rfl⟩, rfl⟩, hc⟩
  have hmem' : c ∈ (ofFindings fs).fieldChanges.filter (·.kind.isChange) :=
    List.mem_filter.mpr ⟨hmem, hc⟩
  rw [record?, ChangeRecord.of?, if_neg]
  · exact ⟨_, rfl, hmem'⟩
  · simp only [Bool.and_eq_true, List.isEmpty_iff, not_and]
    exact fun hnil => absurd (hnil ▸ hmem') List.not_mem_nil

end Correlation

end SnapshotDiff
