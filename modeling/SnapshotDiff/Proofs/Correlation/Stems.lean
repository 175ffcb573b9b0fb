import Mathlib.Data.List.TakeWhile
import SnapshotDiff.Proofs.Change.Items
import SnapshotDiff.Proofs.Correlation.Dirty
import SnapshotDiff.Proofs.Correlation.Groups
import SnapshotDiff.Proofs.Path

/-!
# Findings below one field of the root

The identity of a member tells, in front of its first bracket, in which collection of the root the
member is or has an ancestor.  All findings about one member, all members that it is matched with
and all collections to which it contributes are below the same path.  So the part of a record that
lies outside a path depends on the findings outside that path only: neither does what was found
inside mark a member outside as changed, nor does the order of the groups matter in which the two
are mixed.

## Main definitions

* `Owner.stem`, `Finding.stem` — the path of the root that an owner or a finding is below.
* `Finding.Placed` — the finding has the stem of the collection that it tells of.
* `ChangeRecord.outside` — the changes of a record outside a path.

## Main results

* `Owner.stem_member` — a member is below the path that its owner is below, or below its
  collection's if that is one of the root.
* `Correlation.outside_record?` — the changes outside a path are those of the findings outside it.
-/

namespace SnapshotDiff

namespace Owner

variable {o : Owner} {path : String}

/-- The path of the collection of the root that a member belongs to, itself or with a member that
it is below. -/
def stem (o : Owner) : String := String.ofList ((o.identity.toList.drop 1).takeWhile (· ≠ '['))

/-- The owner is the root, or it has a stem that a bracket ends. -/
def IsSited (o : Owner) : Prop := o.isRoot ∨ '[' ∈ o.identity.toList.drop 1

theorem toList_identity_member (o : Owner) (typeName collection key : String) :
    (o.member typeName collection key).identity.toList
      = o.identity.toList ++ '/' :: (collection.toList ++ '[' :: (key.toList ++ [']'])) := by
  simp [member]

@[simp] theorem isRoot_member (o : Owner) (typeName collection key : String) :
    (o.member typeName collection key).isRoot = false := by
  rw [isRoot, decide_eq_false_iff_not, ← String.toList_inj, toList_identity_member]
  simp

theorem isSited_member (o : Owner) (typeName collection key : String) :
    (o.member typeName collection key).IsSited := by
  refine Or.inr ?_
  rw [toList_identity_member]
  -- the bracket is not the first character, whatever is in front of it
  cases o.identity.toList <;> simp

theorem takeWhile_append_bracket {cs : List Char} (h : '[' ∉ cs) (rest : List Char) :
    (cs ++ '[' :: rest).takeWhile (· ≠ '[') = cs := by
  have hcs : ∀ c ∈ cs, decide (c ≠ '[') = true := by
    rintro c hc
    exact decide_eq_true (ne_of_mem_of_not_mem hc h)
  rw [List.takeWhile_append_of_pos hcs, List.takeWhile_cons_of_neg (by decide), List.append_nil]

/-- **A member is below its collection if that is one of the root, and else below the path that its
owner is below.** -/
theorem stem_member (ho : o.IsSited) (hpath : '[' ∉ path.toList) (typeName key : String) :
    (o.member typeName path key).stem = if o.isRoot then path else o.stem := by
  rw [stem, toList_identity_member]
  split
  · next hroot =>
    rw [isRoot, decide_eq_true_iff] at hroot
    rw [hroot, String.toList_empty, List.nil_append, List.drop_one, List.tail_cons,
      takeWhile_append_bracket hpath, String.ofList_toList]
  · next hroot =>
    have hbracket := ho.resolve_left hroot
    obtain ⟨c, cs, hcs⟩ := List.exists_cons_of_ne_nil (l := o.identity.toList) fun hnil => by
      simp [hnil] at hbracket
    rw [hcs, List.drop_one, List.tail_cons] at hbracket
    -- what is put behind the first bracket makes no difference
    have hshort : (cs.takeWhile (· ≠ '[')).length ≠ cs.length := by
      intro hlength
      have hself := (List.takeWhile_prefix (l := cs) (· ≠ '[')).eq_of_length hlength
      exact absurd (List.takeWhile_eq_self_iff.mp hself '[' hbracket) (by decide)
    rw [stem, hcs, List.cons_append, List.drop_one, List.tail_cons, List.drop_one, List.tail_cons,
      List.takeWhile_append, if_neg hshort]

end Owner

namespace Finding

/-- The path of the root that the finding is below: that of a field of the root, or the stem of its
owner. -/
def stem : Finding → String
  | field o change => if o.isRoot then change.path else o.stem
  | member _ o _ _ | matched _ o _ _ => o.stem

/-- There is one root, and a member is below its collection if that is one of the root, and else
below the path that the owner of its collection is below. -/
def Placed (root : Owner) : Finding → Prop
  | field o _ => o.isRoot → o = root
  | member site o _ _ | matched site o _ _ =>
    o.isRoot = false ∧ o.stem = if site.owner.isRoot then site.collection else site.owner.stem

/-- The finding is not below the path. -/
def elsewhere (top : String) (f : Finding) : Bool := !Path.within f.stem top

variable {root o : Owner} {fs : List Finding} {f : Finding} {top : String}

theorem stem_of_isRoot_eq_false (h : f.owner.isRoot = false) : f.stem = f.owner.stem := by
  cases f with
  | field o change => exact if_neg (by simpa [owner] using h)
  | member | matched => rfl

theorem Placed.owner_eq_root (h : Placed root f) (hroot : f.owner.isRoot) :
    f.owner = root ∧ ∃ change, f = field root change := by
  cases f with
  | field o change =>
    obtain rfl := h hroot
    exact ⟨rfl, change, rfl⟩
  | member | matched =>
    rw [owner, h.1] at hroot
    exact absurd hroot (by decide)

theorem Placed.of_membership? (h : Placed root f) {m : Membership} (hm : f.membership? = some m) :
    f.owner.isRoot = false ∧ f.owner.stem
      = if m.site.owner.isRoot then m.site.collection else m.site.owner.stem := by
  cases f with
  | member site o kind value =>
    obtain rfl := Option.some.inj hm
    exact h
  | _ => simp [membership?] at hm

theorem Placed.of_match? (h : Placed root f) {m : Match} (hm : f.match? = some m) :
    f.owner.isRoot = false ∧ f.owner.stem
      = if m.site.owner.isRoot then m.site.collection else m.site.owner.stem := by
  cases f with
  | matched site o old new =>
    obtain rfl := Option.some.inj hm
    exact h
  | _ => simp [match?] at hm

/-- Of a member either all findings are outside a path or none is. -/
theorem about_filter_elsewhere (ho : o.isRoot = false) (hout : Path.within o.stem top = false) :
    about o (fs.filter (elsewhere top)) = about o fs := by
  rw [about, about, List.filter_filter]
  refine List.filter_congr fun f _ => ?_
  by_cases howner : f.owner = o
  · subst howner
    rw [elsewhere, stem_of_isRoot_eq_false ho, hout]
    simp
  · simp [howner]

end Finding

/-- Collections are put together name by name, so that some of them can be left out first. -/
theorem CollectionChange.filter_foldl_pushTo (q : String → Bool)
    (items : List (String × ItemChange)) :
    (items.foldl (fun cs i => pushTo i.1 i.2 cs) []).filter (fun c => q c.name)
      = (items.filter fun i => q i.1).foldl (fun cs i => pushTo i.1 i.2 cs) [] := by
  have hnames : (items.filter fun i => q i.1).map Prod.fst = (items.map Prod.fst).filter q := by
    rw [List.filter_map]
    rfl
  rw [foldl_pushTo_nil, foldl_pushTo_nil, List.filter_map, hnames, List.eraseDups_filter]
  simp only [Function.comp_def, name_ofItems]
  refine List.map_congr_left fun name hname => ?_
  -- under a name that is kept nothing is left out
  have hkept : (items.filter fun i => q i.1).filter (·.1 = name) = items.filter (·.1 = name) := by
    rw [List.filter_filter]
    refine List.filter_congr fun i _ => ?_
    by_cases hi : i.1 = name
    · simp [hi, (List.mem_filter.mp hname).2]
    · simp [hi]
  rw [ofItems, ofItems, hkept]

open Finding

namespace Correlation

variable {root o p : Owner} {fs gs : List Finding} {top : String}

/-! ### Members that hold a change -/

/-- Which of some members hold a change depends on these members only, if with a member all those
matched in its collections are among them. -/
theorem HoldsChange.of_restrict {c d : Correlation} {P : Owner → Prop}
    (hchanged : ∀ o, P o → o ∈ c.changed → o ∈ d.changed)
    (hparent : ∀ o p, P p → p.isRoot = false → c.parent? o = some p →
      P o ∧ d.parent? o = some p)
    (h : c.HoldsChange o) (ho : P o) : d.HoldsChange o := by
  induction h with
  | changed h => exact .changed (hchanged _ ho h)
  | parent _ hp hroot ih =>
    obtain ⟨hbelow, hd⟩ := hparent _ _ ho hroot hp
    exact .parent (ih hbelow) hd hroot

/-- A member outside a path that something was found at has this found outside. -/
theorem mem_changed_filter_iff (hfs : ∀ f ∈ fs, Placed root f)
    (hout : Path.within o.stem top = false) :
    o ∈ (ofFindings (fs.filter (elsewhere top))).changed ↔ o ∈ (ofFindings fs).changed := by
  rw [mem_changed_ofFindings, mem_changed_ofFindings]
  refine and_congr_right fun ho => ?_
  rw [about_filter_elsewhere ho hout]
  refine or_congr_left ?_
  constructor
  · rintro ⟨f, hf, hm⟩
    exact ⟨f, (List.mem_filter.mp hf).1, hm⟩
  · rintro ⟨f, hf, m, hm, rfl⟩
    obtain ⟨howner, hstem⟩ := (hfs f hf).of_membership? hm
    rw [if_neg (by simpa using ho)] at hstem
    refine ⟨f, List.mem_filter.mpr ⟨hf, ?_⟩, m, hm, rfl⟩
    rw [elsewhere, stem_of_isRoot_eq_false howner, hstem, hout]
    rfl

/-- A member is below the same path as the member in whose collection it was matched. -/
theorem stem_of_parent? (hfs : ∀ f ∈ fs, Placed root f) (h : (ofFindings fs).parent? o = some p) :
    o.isRoot = false ∧ (p.isRoot = false → o.stem = p.stem) := by
  rw [parent?_ofFindings] at h
  obtain ⟨m, hm, rfl⟩ := Option.map_eq_some_iff.mp h
  obtain ⟨f, hf, hfm⟩ := List.mem_filterMap.mp (List.mem_of_getLast? hm)
  obtain ⟨hmem, rfl⟩ := mem_about.mp hf
  obtain ⟨howner, hstem⟩ := (hfs f hmem).of_match? hfm
  refine ⟨howner, fun hroot => ?_⟩
  rwa [if_neg (by simpa using hroot)] at hstem

theorem parent?_filter (ho : o.isRoot = false) (hout : Path.within o.stem top = false) :
    (ofFindings (fs.filter (elsewhere top))).parent? o = (ofFindings fs).parent? o := by
  rw [parent?_ofFindings, parent?_ofFindings, lastMatch?, lastMatch?,
    about_filter_elsewhere ho hout]

/-- **What was found inside a path does not mark a member outside it.** -/
theorem contains_dirty_filter (hfs : ∀ f ∈ fs, Placed root f)
    (hout : Path.within o.stem top = false) :
    (ofFindings (fs.filter (elsewhere top))).dirty.contains o
      = (ofFindings fs).dirty.contains o := by
  have hleft : ∀ f ∈ fs.filter (elsewhere top), Placed root f :=
    fun f hf => hfs f (List.mem_filter.mp hf).1
  rw [Bool.eq_iff_iff, List.contains_iff_mem, List.contains_iff_mem, mem_dirty_iff, mem_dirty_iff]
  constructor
  · intro h
    refine h.of_restrict (P := fun o => Path.within o.stem top = false)
      (fun o ho => (mem_changed_filter_iff hfs ho).mp) (fun o p hp hroot hop => ?_) hout
    obtain ⟨ho, hstem⟩ := stem_of_parent? hleft hop
    have hbelow := (congrArg (Path.within · top) (hstem hroot)).trans hp
    exact ⟨hbelow, parent?_filter ho hbelow ▸ hop⟩
  · intro h
    refine h.of_restrict (P := fun o => Path.within o.stem top = false)
      (fun o ho => (mem_changed_filter_iff hfs ho).mpr) (fun o p hp hroot hop => ?_) hout
    obtain ⟨ho, hstem⟩ := stem_of_parent? hfs hop
    have hbelow := (congrArg (Path.within · top) (hstem hroot)).trans hp
    exact ⟨hbelow, (parent?_filter ho hbelow).trans hop⟩

/-! ### What the groups contribute -/

/-- A group contributes to the collection of the root that its member is below. -/
theorem of_mem_itemsOf (hfs : ∀ f ∈ fs, Placed root f) {dirty : List Owner}
    {i : String × ItemChange} (h : i ∈ itemsOf dirty o (groupOf fs o)) :
    o.isRoot = false ∧ i.1 = o.stem := by
  unfold itemsOf at h
  split at h
  · obtain ⟨m, hm, hi⟩ := List.mem_filterMap.mp h
    obtain ⟨hm, hroot⟩ := List.mem_filter.mp hm
    obtain ⟨f, hf, hfm⟩ := List.mem_filterMap.mp hm
    obtain ⟨hmem, rfl⟩ := mem_about.mp hf
    obtain ⟨item, -, rfl⟩ := Option.map_eq_some_iff.mp hi
    obtain ⟨howner, hstem⟩ := (hfs f hmem).of_membership? hfm
    rw [if_pos hroot] at hstem
    exact ⟨howner, hstem.symm⟩
  · split at h
    · next m hm =>
      split at h
      · next hand =>
        rw [Bool.and_eq_true] at hand
        obtain rfl := List.mem_singleton.mp h
        obtain ⟨f, hf, hfm⟩ := List.mem_filterMap.mp (List.mem_of_getLast? hm)
        obtain ⟨hmem, rfl⟩ := mem_about.mp hf
        obtain ⟨howner, hstem⟩ := (hfs f hmem).of_match? hfm
        rw [if_pos hand.1] at hstem
        exact ⟨howner, hstem.symm⟩
      · exact absurd h List.not_mem_nil
    · exact absurd h List.not_mem_nil

theorem itemsOf_congr {dirty dirty' : List Owner} (habout : about o fs = about o gs)
    (hdirty : dirty.contains o = dirty'.contains o) :
    itemsOf dirty o (groupOf fs o) = itemsOf dirty' o (groupOf gs o) := by
  have hmemberships : (groupOf fs o).memberships = (groupOf gs o).memberships :=
    congrArg (List.filterMap membership?) habout
  have hmatched : (groupOf fs o).matched = (groupOf gs o).matched :=
    congrArg (fun fs => (List.filterMap match? fs).getLast?) habout
  rw [itemsOf, itemsOf, Group.isMembership, Group.isMembership, hmemberships, hmatched, hdirty]

/-- The items of the collections outside a path are contributed by what was found outside. -/
theorem filter_flatMap_itemsOf (hfs : ∀ f ∈ fs, Placed root f) :
    ((ofFindings fs).groups.flatMap fun e => itemsOf (ofFindings fs).dirty e.1 e.2).filter
        (fun i => !Path.within i.1 top)
      = (ofFindings (fs.filter (elsewhere top))).groups.flatMap fun e =>
          itemsOf (ofFindings (fs.filter (elsewhere top))).dirty e.1 e.2 := by
  have hleft : ∀ f ∈ fs.filter (elsewhere top), Placed root f :=
    fun f hf => hfs f (List.mem_filter.mp hf).1
  -- only members outside the path contribute to either side
  let q (o : Owner) : Bool := !o.isRoot && !Path.within o.stem top
  have howners : ((fs.filter (elsewhere top)).map owner).filter q = (fs.map owner).filter q := by
    rw [List.filter_map, List.filter_map, List.filter_filter]
    congr 1
    refine List.filter_congr fun f _ => ?_
    cases hroot : f.owner.isRoot with
    | true => simp [q, hroot]
    | false => simp [q, hroot, elsewhere, stem_of_isRoot_eq_false hroot]
  have hinside : ∀ o ∈ (fs.map owner).eraseDups, q o = false →
      (itemsOf (ofFindings fs).dirty o (groupOf fs o)).filter (fun i => !Path.within i.1 top)
        = [] := by
    intro o _ ho
    refine List.filter_eq_nil_iff.mpr fun i hi hout => ?_
    obtain ⟨hroot, hname⟩ := of_mem_itemsOf hfs hi
    rw [hname] at hout
    exact absurd ho (by simp [q, hroot, hout])
  have hnone : ∀ o ∈ ((fs.filter (elsewhere top)).map owner).eraseDups, q o = false →
      itemsOf (ofFindings (fs.filter (elsewhere top))).dirty o
        (groupOf (fs.filter (elsewhere top)) o) = [] := by
    intro o ho hq
    rw [List.mem_eraseDups] at ho
    obtain ⟨f, hf, rfl⟩ := List.mem_map.mp ho
    refine List.eq_nil_iff_forall_not_mem.mpr fun i hi => ?_
    obtain ⟨hroot, -⟩ := of_mem_itemsOf hleft hi
    have hout := (List.mem_filter.mp hf).2
    rw [elsewhere, stem_of_isRoot_eq_false hroot] at hout
    exact absurd hq (by simp [q, hroot, hout])
  rw [flatMap_itemsOf, flatMap_itemsOf, List.filter_flatMap,
    ← List.flatMap_filter_of_eq_nil hinside, ← List.flatMap_filter_of_eq_nil hnone,
    ← List.eraseDups_filter, ← List.eraseDups_filter, howners]
  refine List.flatMap_congr fun o ho => ?_
  obtain ⟨-, hq⟩ := List.mem_filter.mp (List.mem_eraseDups.mp ho)
  obtain ⟨hroot, hout⟩ : o.isRoot = false ∧ Path.within o.stem top = false := by
    simpa [q] using hq
  have hself : (itemsOf (ofFindings fs).dirty o (groupOf fs o)).filter
      (fun i => !Path.within i.1 top) = itemsOf (ofFindings fs).dirty o (groupOf fs o) :=
    List.filter_eq_self.mpr fun i hi => by rw [(of_mem_itemsOf hfs hi).2, hout]; rfl
  rw [hself]
  exact itemsOf_congr (about_filter_elsewhere hroot hout).symm (contains_dirty_filter hfs hout).symm

/-- The changes of fields outside a path are those found outside. -/
theorem filter_fieldChanges (hroot : root.isRoot) (hfs : ∀ f ∈ fs, Placed root f) :
    (ofFindings fs).fieldChanges.filter (fun c => !Path.within c.path top)
      = (ofFindings (fs.filter (elsewhere top))).fieldChanges := by
  have howner : ∀ f ∈ fs, f.owner.isRoot → f.owner = root :=
    fun f hf h => ((hfs f hf).owner_eq_root h).1
  -- what was found on the root is a field, below its own path
  have hchanges : ((about root fs).filterMap change?).filter (fun c => !Path.within c.path top)
      = (about root (fs.filter (elsewhere top))).filterMap change? := by
    have hcomm : about root (fs.filter (elsewhere top)) = (about root fs).filter (elsewhere top) :=
      List.filter_comm _ _ _
    rw [hcomm, List.filter_filterMap, List.filterMap_filter]
    refine List.filterMap_congr fun f hf => ?_
    obtain ⟨hmem, rfl⟩ := mem_about.mp hf
    obtain ⟨-, change, hchange⟩ := (hfs f hmem).owner_eq_root hroot
    rw [hchange, elsewhere, stem, if_pos hroot, Finding.change?, Option.filter_some]
  rw [fieldChanges_ofFindings hroot howner,
    fieldChanges_ofFindings hroot fun f hf => howner f (List.mem_filter.mp hf).1, ← hchanges,
    List.filter_comm]

/-- The changes of collections outside a path are those found outside. -/
theorem filter_collectionChanges (hfs : ∀ f ∈ fs, Placed root f) :
    (ofFindings fs).collectionChanges.filter (fun c => !Path.within c.name top)
      = (ofFindings (fs.filter (elsewhere top))).collectionChanges := by
  show List.filter _ (List.foldl _ [] _) = List.foldl _ [] _
  rw [← filter_flatMap_itemsOf hfs, CollectionChange.filter_foldl_pushTo (!Path.within · top)]

end Correlation

/-- The changes that a record has outside a path.  Where there is no record there are none. -/
def ChangeRecord.outside (top : String) (r : Option ChangeRecord) : ChangeRecord where
  fields := ((r.map fields).getD []).filter fun c => !Path.within c.path top
  collections := ((r.map collections).getD []).filter fun c => !Path.within c.name top

theorem ChangeRecord.outside_of? (top : String) (fields : List FieldChange)
    (collections : List CollectionChange) :
    outside top (of? fields collections)
      = outside top (of? (fields.filter fun c => !Path.within c.path top)
          (collections.filter fun c => !Path.within c.name top)) := by
  -- a record lists the changes that say something, and where there are none it would list none
  have hlists : ∀ fields collections, outside top (of? fields collections)
      = ⟨(fields.filter (·.kind.isChange)).filter fun c => !Path.within c.path top,
        ((collections.map fun c => { c with items := c.items.filter (·.kind.isChange) }).filter
          fun c => !c.items.isEmpty).filter fun c => !Path.within c.name top⟩ := by
    intro fields collections
    unfold of?
    dsimp only
    split
    · next hnone =>
      rw [Bool.and_eq_true, List.isEmpty_iff, List.isEmpty_iff] at hnone
      rw [hnone.1, hnone.2]
      rfl
    · rfl
  rw [hlists, hlists]
  congr 1
  · rw [List.filter_filter, List.filter_filter, List.filter_filter]
    exact List.filter_congr fun c _ => by cases Path.within c.path top <;> simp
  · rw [List.filter_filter, List.filter_filter, List.filter_map, List.filter_map,
      List.filter_filter]
    congr 1
    refine List.filter_congr fun c _ => ?_
    cases hwithin : Path.within c.name top <;> simp [hwithin]

/-- **The changes outside a path are those of the findings outside it.** -/
theorem Correlation.outside_record? {root : Owner} (hroot : root.isRoot) {fs : List Finding}
    (hfs : ∀ f ∈ fs, Placed root f) (top : String) :
    ChangeRecord.outside top (ofFindings fs).record?
      = ChangeRecord.outside top (ofFindings (fs.filter (elsewhere top))).record? := by
  rw [record?, record?, ChangeRecord.outside_of?, filter_fieldChanges hroot hfs,
    filter_collectionChanges hfs]

end SnapshotDiff
