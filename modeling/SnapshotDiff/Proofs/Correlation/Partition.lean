import Mathlib.Data.List.Perm.Basic
import SnapshotDiff.Proofs.Correlation.Groups

/-!
# Groups as a partition of the findings

Grouping loses no finding and puts none out of order, save for the matches of one object, of which
the last one takes the place of all earlier ones.  What the groups hold is a permutation of the
findings that are left; every object has one group, and sorting what the groups hold by place gives
the list of findings back.

## Main definitions

* `Finding.standing` — the findings with their places, without the matches that were overwritten.
* `Group.findings` — what a group holds, as findings.

## Main results

* `Correlation.pairwise_firstSeen` — the groups come in the order of their first findings.
* `Correlation.perm_standing` — what the groups hold are the findings that are left.
* `Correlation.ofFindings_partition` — grouping as a partition that can be undone.
-/

namespace List

variable {α β : Type*}

/-- Sorting undoes a permutation of a list in strictly ascending order. -/
theorem mergeSort_eq_of_perm {f : α → ℕ} {l l' : List α} (hl : l.Pairwise fun a b => f a < f b)
    (h : l'.Perm l) : l'.mergeSort (fun a b => f a ≤ f b) = l := by
  have hsorted : (l'.mergeSort fun a b => decide (f a ≤ f b)).Pairwise
      fun a b => decide (f a ≤ f b) :=
    pairwise_mergeSort (fun a b c hab hbc => by simp only [decide_eq_true_eq] at *; omega)
      (fun a b => by simp only [Bool.or_eq_true, decide_eq_true_eq]; omega) l'
  have hperm := (mergeSort_perm l' fun a b => decide (f a ≤ f b)).trans h
  refine hperm.eq_of_pairwise (fun a b ha hb hab hba => ?_) hsorted
    (hl.imp fun hab => decide_eq_true (Nat.le_of_lt hab))
  -- elements at one place are one element
  have hinj := inj_on_of_nodup_map (f := f) (pairwise_map.mpr (hl.imp Nat.ne_of_lt))
  simp only [decide_eq_true_eq] at hab hba
  exact hinj (hperm.mem_iff.mp ha) hb (Nat.le_antisymm hab hba)

/-- A list is made up of what it holds under each of some keys, if these are all of its keys. -/
theorem flatMap_filter_perm [DecidableEq β] (key : α → β) {keys : List β} (hkeys : keys.Nodup) :
    ∀ {l : List α}, (∀ a ∈ l, key a ∈ keys) →
      (keys.flatMap fun k => l.filter (key · = k)).Perm l := by
  induction keys with
  | nil =>
    intro l hl
    rw [eq_nil_iff_forall_not_mem.mpr fun a ha => not_mem_nil (hl a ha)]
    exact .nil
  | cons k keys ih =>
    intro l hl
    obtain ⟨hk, hkeys⟩ := nodup_cons.mp hkeys
    -- what is not under the first key is made up by the others
    have hrest : (keys.flatMap fun k' => l.filter (key · = k')).Perm
        (l.filter fun a => !decide (key a = k)) := by
      have hfilter : (keys.flatMap fun k' => l.filter (key · = k'))
          = keys.flatMap fun k' => (l.filter fun a => !decide (key a = k)).filter (key · = k') := by
        refine flatMap_congr fun k' hk' => ?_
        rw [filter_filter]
        refine filter_congr fun a _ => ?_
        have hne : k' ≠ k := ne_of_mem_of_not_mem hk' hk
        by_cases ha : key a = k'
        · simp [ha, hne]
        · simp [ha]
      rw [hfilter]
      refine ih hkeys fun a ha => ?_
      obtain ⟨ha, hne⟩ := mem_filter.mp ha
      exact (mem_cons.mp (hl a ha)).resolve_left (by simpa using hne)
    rw [flatMap_cons]
    exact (hrest.append_left _).trans (filter_append_perm _ l)

end List

namespace SnapshotDiff

namespace Finding

/-- The finding is a match, and the object is matched again in what follows. -/
def isOverwritten (f : Finding) (later : List Finding) : Bool :=
  f.match?.isSome && (about f.owner later).any (·.match?.isSome)

/-- The findings with their places, the first of which is `i`, without those that a later match of
the same object takes the place of. -/
def standing : (i : ℕ) → List Finding → List (Finding × ℕ)
  | _, [] => []
  | i, f :: fs => if f.isOverwritten fs then standing (i + 1) fs else (f, i) :: standing (i + 1) fs

variable {o : Owner}

theorem sublist_standing (i : ℕ) (fs : List Finding) : (standing i fs).Sublist (fs.zipIdx i) := by
  induction fs generalizing i with
  | nil => exact .slnil
  | cons f fs ih =>
    rw [standing, List.zipIdx_cons]
    split
    · exact (ih (i + 1)).cons _
    · exact (ih (i + 1)).cons_cons _

/-- The findings that are left keep their order. -/
theorem pairwise_standing (i : ℕ) (fs : List Finding) :
    (standing i fs).Pairwise fun a b => a.2 < b.2 := by
  refine List.Pairwise.sublist (sublist_standing i fs) ?_
  rw [← List.pairwise_map (f := Prod.snd), List.zipIdx_map_snd]
  exact List.pairwise_lt_range'

theorem any_match? (fs : List Finding) :
    fs.any (·.match?.isSome) = !(fs.filterMap match?).isEmpty := by
  induction fs with
  | nil => rfl
  | cons f fs ih =>
    cases f with
    | field | member => exact ih
    | matched => rfl

theorem about_about (o : Owner) (fs : List Finding) : about o (about o fs) = about o fs := by
  rw [about, about, List.filter_filter]
  simp

/-- Whether a finding is left depends on the findings about its object only. -/
theorem filter_standing (o : Owner) (i j : ℕ) (fs : List Finding) :
    ((standing i fs).filter (·.1.owner = o)).map Prod.fst
      = (standing j (about o fs)).map Prod.fst := by
  induction fs generalizing i j with
  | nil => rfl
  | cons f fs ih =>
    rw [standing]
    by_cases howner : f.owner = o
    · have habout : about o (f :: fs) = f :: about o fs :=
        List.filter_cons_of_pos (decide_eq_true howner)
      have hover : f.isOverwritten (about o fs) = f.isOverwritten fs := by
        rw [isOverwritten, isOverwritten, howner, about_about]
      rw [habout, standing, hover]
      split
      · exact ih (i + 1) (j + 1)
      · rw [List.filter_cons_of_pos (by simpa using howner), List.map_cons, List.map_cons,
          ih (i + 1) (j + 1)]
    · have habout : about o (f :: fs) = about o fs :=
        List.filter_cons_of_neg (by simpa using howner)
      rw [habout]
      split
      · exact ih (i + 1) j
      · rw [List.filter_cons_of_neg (by simpa using howner)]
        exact ih (i + 1) j

end Finding

open Finding

namespace Group

/-- What a group holds, as findings about its object. -/
def findings (o : Owner) (g : Group) : List Finding :=
  g.fields.map (.field o) ++ (g.memberships.map (fun m => .member m.site o m.kind m.value)
    ++ (g.matched.map fun m => .matched m.site o m.old m.new).toList)

/-- The group of one object holds the findings about it that are left. -/
theorem findings_perm {o : Owner} (i j : ℕ) {fs : List Finding} (h : ∀ f ∈ fs, f.owner = o) :
    ((ofFindings i fs).findings o).Perm ((standing j fs).map Prod.fst) := by
  induction fs generalizing j with
  | nil => exact .nil
  | cons f fs ih =>
    obtain ⟨hf, hfs⟩ := List.forall_mem_cons.mp h
    have hrest := ih (j + 1) hfs
    cases f with
    | field o' change =>
      obtain rfl : o' = o := hf
      exact hrest.cons _
    | member site o' kind value =>
      obtain rfl : o' = o := hf
      refine List.Perm.trans ?_ (hrest.cons _)
      exact List.perm_middle
    | matched site o' old new =>
      obtain rfl : o' = o := hf
      have habout : about o' fs = fs := List.filter_eq_self.mpr fun f hf => decide_eq_true (hfs f hf)
      have hover : (Finding.matched site o' old new).isOverwritten fs
          = !(fs.filterMap match?).isEmpty := by
        rw [isOverwritten, owner, habout, any_match?]
        rfl
      rw [standing, hover]
      -- the match is the last one if no other follows
      cases hms : fs.filterMap match? with
      | nil =>
        refine List.Perm.trans ?_ (hrest.cons _)
        have hnone : (ofFindings i fs).matched = none := by rw [ofFindings, hms]; rfl
        have hlast : (ofFindings i (.matched site o' old new :: fs)).matched
            = some ⟨site, old, new⟩ := by
          show (⟨site, old, new⟩ :: fs.filterMap match?).getLast? = _
          rw [hms, List.getLast?_singleton]
        rw [findings, findings, hnone, hlast, Option.map_none, Option.map_some, Option.toList_none,
          Option.toList_some, List.append_nil, ← List.append_assoc]
        exact List.perm_append_singleton _ _
      | cons m ms =>
        refine List.Perm.trans ?_ hrest
        have hlast : (ofFindings i (.matched site o' old new :: fs)).matched
            = (ofFindings i fs).matched := by
          show (⟨site, old, new⟩ :: fs.filterMap match?).getLast? = (fs.filterMap match?).getLast?
          rw [hms, List.getLast?_cons_cons]
        rw [findings, findings, hlast]
        exact .refl _

end Group

namespace Correlation

variable {fs : List Finding} {o : Owner}

/-! ### The order of the groups -/

theorem findIdx_of_notMem (h : o ∉ fs.map owner) : fs.findIdx (·.owner = o) = fs.length :=
  List.findIdx_eq_length_of_false fun e he => decide_eq_false fun heq =>
    h (List.mem_map.mpr ⟨e, he, heq⟩)

theorem findIdx_lt_of_mem (h : o ∈ fs.map owner) : fs.findIdx (·.owner = o) < fs.length := by
  obtain ⟨f, hf, rfl⟩ := List.mem_map.mp h
  exact List.findIdx_lt_length_of_exists ⟨f, hf, decide_eq_true rfl⟩

/-- Objects that occur first are found first. -/
theorem pairwise_findIdx (fs : List Finding) : (fs.map owner).eraseDups.Pairwise fun o p =>
    fs.findIdx (·.owner = o) < fs.findIdx (·.owner = p) := by
  induction fs using List.reverseRecOn with
  | nil => exact .nil
  | append_singleton fs f ih =>
    -- one more finding leaves the places of the objects that were found before it
    have hold : (fs.map owner).eraseDups.Pairwise fun o p =>
        (fs ++ [f]).findIdx (·.owner = o) < (fs ++ [f]).findIdx (·.owner = p) := by
      refine ih.imp_of_mem fun {o p} ho hp hlt => ?_
      rwa [findIdx_concat_of_mem (List.mem_eraseDups.mp ho),
        findIdx_concat_of_mem (List.mem_eraseDups.mp hp)]
    rw [List.map_append, List.map_singleton, List.eraseDups_concat]
    split
    · exact hold
    · next hnew =>
      refine List.pairwise_append.mpr ⟨hold, List.pairwise_singleton _ _, fun o ho p hp => ?_⟩
      obtain rfl := List.mem_singleton.mp hp
      rw [List.mem_eraseDups] at ho
      have hplace := findIdx_of_notMem hnew
      rw [findIdx_concat_of_mem ho, List.findIdx_append, hplace, if_neg (Nat.lt_irrefl _)]
      exact Nat.lt_add_left _ (findIdx_lt_of_mem ho)

/-- **The groups come in the order of their first findings.** -/
theorem pairwise_firstSeen (fs : List Finding) :
    (ofFindings fs).groups.Pairwise fun d e => d.2.firstSeen < e.2.firstSeen := by
  rw [groups_ofFindings, List.pairwise_map]
  exact pairwise_findIdx fs

theorem map_fst_groups (fs : List Finding) :
    (ofFindings fs).groups.map Prod.fst = (fs.map owner).eraseDups := by
  rw [groups_ofFindings, List.map_map]
  exact List.map_id _

/-- What is found under an object is its group. -/
theorem get?_eq_some_iff {g : Group} :
    (ofFindings fs).get? o = some g ↔ (o, g) ∈ (ofFindings fs).groups := by
  rw [get?_ofFindings, mem_groups_iff]
  split
  · next h => rw [Option.some.injEq, eq_comm]; simp [h]
  · next h => simp [h]

/-! ### What the groups hold -/

/-- **What the groups hold are the findings that are left**, in some order. -/
theorem perm_standing (fs : List Finding) :
    ((ofFindings fs).groups.flatMap fun e => e.2.findings e.1).Perm
      ((standing 0 fs).map Prod.fst) := by
  have hone : ∀ o, ((groupOf fs o).findings o).Perm
      (((standing 0 fs).filter (·.1.owner = o)).map Prod.fst) := by
    intro o
    rw [filter_standing o 0 0]
    exact Group.findings_perm _ 0 fun f hf => (mem_about.mp hf).2
  have hkeys : ∀ e ∈ standing 0 fs, e.1.owner ∈ (fs.map owner).eraseDups := by
    intro e he
    have hmem := (sublist_standing 0 fs).subset he
    exact List.mem_eraseDups.mpr (List.mem_map_of_mem (List.fst_mem_of_mem_zipIdx hmem))
  rw [groups_ofFindings, List.flatMap_map]
  refine (List.Perm.flatMap_left _ fun o _ => hone o).trans ?_
  rw [← List.map_flatMap]
  exact (List.flatMap_filter_perm (fun e : Finding × ℕ => e.1.owner) (List.nodup_eraseDups _) hkeys).map _

/-- **Grouping partitions the findings, and can be undone.**  There is one group for every object
that a finding is about; it holds the changes of fields and what came and left in their order, the
last match, and the place of the first finding.  The groups come in the order of these places, which
is also how any other arrangement of them is sorted.  Sorting what they hold by place gives the
findings back, without the matches that were overwritten. -/
theorem ofFindings_partition (fs : List Finding) :
    ((ofFindings fs).groups.map Prod.fst).Nodup
    ∧ (∀ o, o ∈ (ofFindings fs).groups.map Prod.fst ↔ ∃ f ∈ fs, f.owner = o)
    ∧ (∀ o g, (ofFindings fs).get? o = some g ↔ (o, g) ∈ (ofFindings fs).groups)
    ∧ (∀ o g, (o, g) ∈ (ofFindings fs).groups →
      g.fields = (about o fs).filterMap change?
      ∧ g.memberships = (about o fs).filterMap membership?
      ∧ g.matched = ((about o fs).filterMap match?).getLast?
      ∧ fs.findIdx? (·.owner = o) = some g.firstSeen)
    ∧ ((ofFindings fs).groups.Pairwise fun d e => d.2.firstSeen < e.2.firstSeen)
    ∧ (∀ table : List (Owner × Group), table.Perm (ofFindings fs).groups →
      table.mergeSort (fun d e => d.2.firstSeen ≤ e.2.firstSeen) = (ofFindings fs).groups)
    ∧ ∃ placed : List (Finding × ℕ),
      placed.map Prod.fst = ((ofFindings fs).groups.flatMap fun e => e.2.findings e.1)
      ∧ placed.mergeSort (fun a b => a.2 ≤ b.2) = standing 0 fs := by
  refine ⟨?_, fun o => ?_, fun o g => get?_eq_some_iff, fun o g hg => ?_, pairwise_firstSeen fs,
    fun table htable => ?_, ?_⟩
  · rw [map_fst_groups]
    exact List.nodup_eraseDups _
  · rw [map_fst_groups, List.mem_eraseDups, List.mem_map]
  · obtain ⟨ho, rfl⟩ := mem_groups_iff.mp hg
    refine ⟨rfl, rfl, rfl, ?_⟩
    exact List.findIdx?_eq_some_iff_findIdx_eq.mpr ⟨findIdx_lt_of_mem ho, rfl⟩
  · exact List.mergeSort_eq_of_perm (f := fun e => e.2.firstSeen) (pairwise_firstSeen fs) htable
  · -- every finding that a group holds has the place that it has in the list
    have hplaces : List.Forall₂ (fun f e => f = e.1) ((standing 0 fs).map Prod.fst)
        (standing 0 fs) := by
      rw [List.forall₂_map_left_iff]
      exact List.forall₂_same.mpr fun _ _ => rfl
    obtain ⟨placed, hplaced, hperm⟩ := List.perm_comp_forall₂ (perm_standing fs) hplaces
    refine ⟨placed, ?_, ?_⟩
    · rw [← List.forall₂_eq_eq_eq, List.forall₂_map_left_iff]
      exact hplaced.flip.imp fun _ _ h => h.symm
    · exact List.mergeSort_eq_of_perm (f := Prod.snd) (pairwise_standing 0 fs) hperm

end Correlation

namespace Rematched

/-- A book of a shelf. -/
def book : Owner := (Owner.root "Shelf").member "Book" "books" "#1"

/-- The book is matched twice, with other findings in between. -/
def findings : List Finding :=
  [.matched ⟨.root "Shelf", "books"⟩ book (.int 1) (.int 2),
    .field (.root "Shelf") ⟨.added, "title", "title", none, some (.str "A")⟩,
    .member ⟨book, "books.tags"⟩ (book.member "Value" "books.tags" "x") .added (.str "x"),
    .matched ⟨.root "Shelf", "books"⟩ book (.int 1) (.int 3)]

/-- The group of the book stands first and holds the second match. -/
theorem ofFindings_partition_book :
    (book, ⟨0, [], [], some ⟨⟨.root "Shelf", "books"⟩, .int 1, .int 3⟩⟩)
        ∈ (Correlation.ofFindings findings).groups
    ∧ findings.findIdx? (·.owner = book) = some 0
    ∧ (Correlation.ofFindings findings).groups.reverse.Perm (Correlation.ofFindings findings).groups
    ∧ (Correlation.ofFindings findings).groups.reverse.mergeSort
        (fun d e => d.2.firstSeen ≤ e.2.firstSeen) = (Correlation.ofFindings findings).groups := by
  obtain ⟨-, -, -, hgroup, -, hsort, -⟩ := Correlation.ofFindings_partition findings
  have hbook : (book, ⟨0, [], [], some ⟨⟨.root "Shelf", "books"⟩, .int 1, .int 3⟩⟩)
      ∈ (Correlation.ofFindings findings).groups := List.mem_cons_self
  have hperm := List.reverse_perm (Correlation.ofFindings findings).groups
  exact ⟨hbook, (hgroup _ _ hbook).2.2.2, hperm, hsort _ hperm⟩

end Rematched

end SnapshotDiff
