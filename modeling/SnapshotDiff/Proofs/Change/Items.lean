import Mathlib.Data.List.Induction
import SnapshotDiff.Change
import SnapshotDiff.Proofs.List.Distinct

/-!
# How collection changes are put together

Changes of members are pushed one after the other, each into the change of its collection, and one
that is equal to an earlier one is left out.  What comes out can be read off the list as a whole:
there is one collection change for every name, in the order of first occurrence, and it holds the
changes under its name, each pushed after the ones before it.

## Main results

* `CollectionChange.foldl_pushTo` — changes of one collection make up one collection change.
* `CollectionChange.foldl_pushTo_nil` — changes of any collections, put together name by name.
* `ChangeRecord.of?_eq` — from changes that say something nothing is left out.
-/

namespace SnapshotDiff

namespace CollectionChange

theorem name_push (c : CollectionChange) (item : ItemChange) : (c.push item).name = c.name := by
  unfold push
  split <;> rfl

theorem name_foldl_push (items : List ItemChange) (c : CollectionChange) :
    (items.foldl push c).name = c.name := by
  induction items generalizing c with
  | nil => rfl
  | cons i items ih => rw [List.foldl_cons, ih, name_push]

theorem mem_items_push {c : CollectionChange} {item i : ItemChange} (h : i ∈ (c.push item).items) :
    i ∈ c.items ∨ i = item := by
  unfold push at h
  split at h
  · exact Or.inl h
  · rcases List.mem_append.mp h with h | h
    · exact Or.inl h
    · exact Or.inr (List.mem_singleton.mp h)

theorem mem_items_foldl_push {items : List ItemChange} {c : CollectionChange} {i : ItemChange}
    (h : i ∈ (items.foldl push c).items) : i ∈ c.items ∨ i ∈ items := by
  induction items generalizing c with
  | nil => exact Or.inl h
  | cons j items ih =>
    rcases ih h with h | h
    · rcases mem_items_push h with h | rfl
      · exact Or.inl h
      · exact Or.inr List.mem_cons_self
    · exact Or.inr (List.mem_cons_of_mem _ h)

/-- Nothing that was told is taken back. -/
theorem items_ne_nil_push (c : CollectionChange) (item : ItemChange) :
    (c.push item).items ≠ [] := by
  unfold push
  split
  · next h =>
    intro hnil
    rw [hnil] at h
    simp at h
  · simp

theorem items_ne_nil_foldl_push {items : List ItemChange} {c : CollectionChange}
    (h : c.items ≠ []) : (items.foldl push c).items ≠ [] := by
  induction items generalizing c with
  | nil => exact h
  | cons i items ih => exact ih (items_ne_nil_push c i)

theorem items_ne_nil_of_ne_nil {items : List ItemChange} (h : items ≠ []) (name : String) :
    (items.foldl push ⟨name, []⟩).items ≠ [] := by
  obtain ⟨i, items, rfl⟩ := List.exists_cons_of_ne_nil h
  rw [List.foldl_cons]
  exact items_ne_nil_foldl_push (items_ne_nil_push _ i)

/-! ### Changes of one collection -/

theorem pushTo_concat {name : String} {cs : List CollectionChange} {c : CollectionChange}
    (hcs : ∀ c ∈ cs, c.name ≠ name) (hc : c.name = name) (item : ItemChange) :
    pushTo name item (cs ++ [c]) = cs ++ [c.push item] := by
  induction cs with
  | nil => rw [List.nil_append, pushTo, if_pos hc]; rfl
  | cons d cs ih =>
    obtain ⟨hd, hcs⟩ := List.forall_mem_cons.mp hcs
    rw [List.cons_append, pushTo, if_neg hd, ih hcs, List.cons_append]

theorem pushTo_of_notMem {name : String} {cs : List CollectionChange}
    (hcs : ∀ c ∈ cs, c.name ≠ name) (item : ItemChange) :
    pushTo name item cs = cs ++ [push ⟨name, []⟩ item] := by
  induction cs with
  | nil => rfl
  | cons d cs ih =>
    obtain ⟨hd, hcs⟩ := List.forall_mem_cons.mp hcs
    rw [pushTo, if_neg hd, ih hcs, List.cons_append]

/-- Changes of one collection that has none yet make up one collection change at the end. -/
theorem foldl_pushTo {name : String} {cs : List CollectionChange} (hcs : ∀ c ∈ cs, c.name ≠ name)
    {items : List ItemChange} (hne : items ≠ []) :
    (items.map (name, ·)).foldl (fun cs i => pushTo i.1 i.2 cs) cs
      = cs ++ [items.foldl push ⟨name, []⟩] := by
  -- the first change opens the collection, and the others find it at the end
  have hlast : ∀ items : List ItemChange, ∀ c : CollectionChange, c.name = name →
      (items.map (name, ·)).foldl (fun cs i => pushTo i.1 i.2 cs) (cs ++ [c])
        = cs ++ [items.foldl push c] := by
    intro items
    induction items with
    | nil => exact fun c _ => rfl
    | cons i items ih =>
      intro c hc
      rw [List.map_cons, List.foldl_cons, pushTo_concat hcs hc, List.foldl_cons]
      exact ih _ ((name_push c i).trans hc)
  obtain ⟨i, items, rfl⟩ := List.exists_cons_of_ne_nil hne
  rw [List.map_cons, List.foldl_cons, pushTo_of_notMem hcs, List.foldl_cons]
  exact hlast items _ (name_push _ i)

/-! ### Changes of any collections -/

/-- The change of the collection with a name, of all changes of members. -/
def ofItems (items : List (String × ItemChange)) (name : String) : CollectionChange :=
  ((items.filter (·.1 = name)).map Prod.snd).foldl push ⟨name, []⟩

@[simp] theorem name_ofItems (items : List (String × ItemChange)) (name : String) :
    (ofItems items name).name = name := name_foldl_push _ _

theorem ofItems_concat (items : List (String × ItemChange)) (i : String × ItemChange)
    (name : String) :
    ofItems (items ++ [i]) name
      = if i.1 = name then (ofItems items name).push i.2 else ofItems items name := by
  rw [ofItems, ofItems, List.filter_append]
  split
  · next h =>
    rw [List.filter_cons_of_pos (by simpa using h), List.filter_nil, List.map_append,
      List.foldl_append]
    rfl
  · next h => rw [List.filter_cons_of_neg (by simpa using h), List.filter_nil, List.append_nil]

theorem pushTo_map_of_mem {name : String} (item : ItemChange) {g : String → CollectionChange}
    (hg : ∀ n, (g n).name = n) {names : List String} (hnames : names.Nodup) (h : name ∈ names) :
    pushTo name item (names.map g)
      = names.map fun n => if name = n then (g n).push item else g n := by
  induction names with
  | nil => exact absurd h List.not_mem_nil
  | cons n names ih =>
    obtain ⟨hn, hnames⟩ := List.nodup_cons.mp hnames
    rw [List.map_cons, List.map_cons, pushTo, hg]
    by_cases hname : n = name
    · have hrest : ∀ m ∈ names, name ≠ m := by
        rintro m hm rfl
        exact hn (hname ▸ hm)
      rw [if_pos hname, if_pos hname.symm]
      congr 1
      exact List.map_congr_left fun m hm => by rw [if_neg (hrest m hm)]
    · rw [if_neg hname, if_neg (Ne.symm hname), ih hnames]
      exact (List.mem_cons.mp h).resolve_left (Ne.symm hname)

/-- **The collection changes that changes of members make up**: one for each name, in the order of
first occurrence. -/
theorem foldl_pushTo_nil (items : List (String × ItemChange)) :
    items.foldl (fun cs i => pushTo i.1 i.2 cs) []
      = (items.map Prod.fst).eraseDups.map (ofItems items) := by
  -- changes are pushed at the end, so the induction takes them from there
  induction items using List.reverseRecOn with
  | nil => rfl
  | append_singleton items i ih =>
    rw [List.foldl_append, List.foldl_cons, List.foldl_nil, ih, List.map_append, List.map_singleton,
      List.eraseDups_concat]
    have hstep : ∀ n, ofItems (items ++ [i]) n
        = if i.1 = n then (ofItems items n).push i.2 else ofItems items n :=
      ofItems_concat items i
    by_cases hi : i.1 ∈ items.map Prod.fst
    · rw [if_pos hi, pushTo_map_of_mem i.2 (name_ofItems items) (List.nodup_eraseDups _)
        (List.mem_eraseDups.mpr hi)]
      exact List.map_congr_left fun n _ => (hstep n).symm
    · have hne : ∀ n ∈ (items.map Prod.fst).eraseDups, i.1 ≠ n := by
        rintro n hn rfl
        exact hi (List.mem_eraseDups.mp hn)
      have hnames : ∀ c ∈ (items.map Prod.fst).eraseDups.map (ofItems items), c.name ≠ i.1 := by
        intro c hc
        obtain ⟨n, hn, rfl⟩ := List.mem_map.mp hc
        rw [name_ofItems]
        exact (hne n hn).symm
      -- under a new name there is nothing yet
      have hnew : ofItems items i.1 = ⟨i.1, []⟩ := by
        have hnone : items.filter (fun e => decide (e.1 = i.1)) = [] := by
          refine List.filter_eq_nil_iff.mpr fun e he heq => hi ?_
          exact List.mem_map.mpr ⟨e, he, of_decide_eq_true heq⟩
        rw [ofItems, hnone]
        rfl
      rw [if_neg hi, pushTo_of_notMem hnames, List.map_append, List.map_singleton, hstep,
        if_pos rfl, hnew]
      congr 1
      exact List.map_congr_left fun n hn => by rw [hstep, if_neg (hne n hn)]

end CollectionChange

namespace ChangeRecord

/-- From changes that say something nothing is left out. -/
theorem of?_eq {fields : List FieldChange} {collections : List CollectionChange}
    (hfields : ∀ f ∈ fields, f.kind.isChange)
    (hcollections : ∀ c ∈ collections, c.items ≠ [] ∧ ∀ i ∈ c.items, i.kind.isChange) :
    of? fields collections
      = if fields.isEmpty && collections.isEmpty then none else some ⟨fields, collections⟩ := by
  have hitems : collections.map (fun c => { c with items := c.items.filter (·.kind.isChange) })
      = collections := by
    refine (List.map_congr_left fun c hc => ?_).trans (List.map_id _)
    rw [List.filter_eq_self.mpr (hcollections c hc).2]
    rfl
  have hnonempty : collections.filter (fun c => !c.items.isEmpty) = collections :=
    List.filter_eq_self.mpr fun c hc => by simpa using (hcollections c hc).1
  simp only [of?, List.filter_eq_self.mpr hfields, hitems, hnonempty]

end ChangeRecord

end SnapshotDiff
