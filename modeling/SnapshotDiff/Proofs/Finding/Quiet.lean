import SnapshotDiff.Proofs.Change.Congruence
import SnapshotDiff.Proofs.Correlation.Groups
import SnapshotDiff.Proofs.Node.Agree
import SnapshotDiff.Proofs.Node.Members

/-!
# Comparisons that find no difference

Of nodes that agree, the walk finds members on both sides and nothing else, and from such findings
no record is made.

## Main definitions

* `Finding.OnlyMatches` — all findings are members on both sides.

## Main results

* `Correlation.record?_eq_none` — matches alone give no record.
* `Finding.onlyMatches_ofField` — **nodes that agree do not differ.**
-/

namespace SnapshotDiff

open Finding (sides byKey byIdentity members presentObject?)

namespace Finding

/-- All findings are members on both sides: no field differs, and nothing came or left. -/
def OnlyMatches (fs : List Finding) : Prop := ∀ f ∈ fs, f.match?.isSome

theorem OnlyMatches.nil : OnlyMatches [] := fun _ hf => absurd hf List.not_mem_nil

theorem OnlyMatches.flatMap {α : Type} {l : List α} {g : α → List Finding}
    (h : ∀ a ∈ l, OnlyMatches (g a)) : OnlyMatches (l.flatMap g) := by
  intro f hf
  obtain ⟨a, ha, hf⟩ := List.mem_flatMap.mp hf
  exact h a ha f hf

/-- A comparison key by key finds matches only if it does so under every key. -/
theorem OnlyMatches.sides {α : Type} {f : String → Option α → Option α → List Finding}
    {olds news : List (String × α)} (hold : (olds.map Prod.fst).Nodup)
    (hnew : (news.map Prod.fst).Nodup)
    (h : ∀ k, OnlyMatches (f k (olds.lookup k) (news.lookup k))) :
    OnlyMatches (sides f olds news) := by
  rw [sides_eq_flatMap hold hnew]
  exact .flatMap fun k _ => h k

theorem change?_eq_none {f : Finding} (h : f.match?.isSome) : f.change? = none := by
  cases f <;> simp [match?, change?] at h ⊢

theorem membership?_eq_none {f : Finding} (h : f.match?.isSome) : f.membership? = none := by
  cases f <;> simp [match?, membership?] at h ⊢

end Finding

/-! ### The record -/

namespace Correlation

variable {fs : List Finding}

/-- A match alone changes nothing, not even the member that was matched. -/
theorem changed_eq_nil (h : Finding.OnlyMatches fs) : (ofFindings fs).changed = [] := by
  rw [List.eq_nil_iff_forall_not_mem]
  intro o ho
  obtain ⟨-, ⟨f, hf, m, hm, -⟩ | ⟨-, f, hf, c, hc, -⟩⟩ := mem_changed_ofFindings.mp ho
  · rw [Finding.membership?_eq_none (h f hf)] at hm
    exact absurd hm (by simp)
  · rw [Finding.change?_eq_none (h f (Finding.mem_about.mp hf).1)] at hc
    exact absurd hc (by simp)

theorem dirty_eq_nil (h : Finding.OnlyMatches fs) : (ofFindings fs).dirty = [] := by
  rw [dirty, changed_eq_nil h]
  cases (ofFindings fs).size <;> rfl

/-- **Matches alone give no record.** -/
theorem record?_eq_none (h : Finding.OnlyMatches fs) : (ofFindings fs).record? = none := by
  have hfields : (ofFindings fs).fieldChanges = [] := by
    rw [fieldChanges, groups_ofFindings, List.flatMap_map, List.flatMap_eq_nil_iff]
    intro o _
    have hnone : (Finding.about o fs).filterMap Finding.change? = [] :=
      List.filterMap_eq_nil_iff.mpr fun f hf =>
        Finding.change?_eq_none (h f (Finding.mem_about.mp hf).1)
    dsimp only [groupOf, Group.ofFindings]
    rw [hnone, List.filter_nil, ite_self]
  have hitems : (ofFindings fs).collectionChanges = [] := by
    have hnone : ((ofFindings fs).groups.flatMap fun e => itemsOf [] e.1 e.2) = [] := by
      rw [flatMap_itemsOf, List.flatMap_eq_nil_iff]
      intro o _
      have hmember : ¬ (groupOf fs o).isMembership := by
        intro hmember
        obtain ⟨f, hf, hsome⟩ := isMembership_groupOf.mp hmember
        rw [Finding.membership?_eq_none (h f (Finding.mem_about.mp hf).1)] at hsome
        exact absurd hsome (by decide)
      rw [itemsOf, if_neg hmember]
      split
      · rw [List.contains_nil, Bool.and_false]
        rfl
      · rfl
    rw [collectionChanges, dirty_eq_nil h]
    dsimp only
    rw [hnone]
    rfl
  rw [record?, hfields, hitems]
  rfl

end Correlation

/-! ### The walk -/

namespace Finding

variable {rules : Rules} {o : Owner} {name path : String}

theorem onlyMatches_ofFields {old new : Table Node} {fields : List (String × FieldShape)}
    (h : ∀ f ∈ fields, rules.reportable (Path.child path f.1) → OnlyMatches
      (ofField rules o f.1 (Path.child path f.1) (old.get? f.1) (new.get? f.1) f.2)) :
    OnlyMatches (ofFields rules o path old new fields) := by
  rw [ofFields_eq_flatMap]
  refine .flatMap fun f hf => ?_
  split
  · next hreportable => exact h f hf hreportable
  · exact .nil

/-- Members with the same keys on both sides. -/
theorem ofSets_eq_nil {typeName : String} {ns ms : List Node}
    (h : ∀ k, k ∈ ns.map Node.key ↔ k ∈ ms.map Node.key) :
    ofSets o typeName path ns ms = [] := by
  rw [ofSets_eq_sides, sides_eq_nil_iff (fun _ => rfl) (nodup_keys_byKey ns) (nodup_keys_byKey ms)]
  intro k
  have hiff : ((byKey ns).lookup k).isSome ↔ ((byKey ms).lookup k).isSome := by
    rw [Node.isSome_lookup_byKey_iff, Node.isSome_lookup_byKey_iff, h]
  cases hn : (byKey ns).lookup k with
  | none =>
    cases hm : (byKey ms).lookup k with
    | none => rfl
    | some m => simp [hn, hm] at hiff
  | some n =>
    cases hm : (byKey ms).lookup k with
    | none => simp [hn, hm] at hiff
    | some m => rfl

/-- What is there on neither side is not found. -/
theorem ofField_none_none (s : FieldShape) : ofField rules o name path none none s = [] := by
  cases s with
  | objects _ _ identity => cases identity <;> rfl
  | _ => rfl

/-- Leaves of one key do not differ. -/
theorem ofField_leaf_eq_nil {kind : Leaf} {v w : Json} {k : String} :
    ofField rules o name path (some (.leaf v k)) (some (.leaf w k)) (.leaf kind) = [] := by
  simp [ofField, ofLeaves, ofValues, Node.leaf?, ChangeKind.classify]

/-- The fields of objects that agree do not differ if what agrees does not. -/
theorem onlyMatches_of_fields {fields : List (String × FieldShape)} {fs gs : Table Node}
    (hkeys : fs.keys = gs.keys)
    (h : ∀ name s n m, (name, s) ∈ fields → fs.get? name = some n → gs.get? name = some m →
      ∀ o name path, OnlyMatches (ofField rules o name path (some n) (some m) s)) :
    OnlyMatches (ofFields rules o path fs gs fields) := by
  refine onlyMatches_ofFields fun f hf _ => ?_
  have hsome := Table.isSome_eq_of_keys_eq hkeys f.1
  cases hn : fs.get? f.1 with
  | none =>
    cases hm : gs.get? f.1 with
    | none =>
      rw [ofField_none_none]
      exact .nil
    | some m => simp [hn, hm] at hsome
  | some n =>
    cases hm : gs.get? f.1 with
    | none => simp [hn, hm] at hsome
    | some m => exact h f.1 f.2 n m hf hn hm _ _ _

/-- Objects with the same fields are both there or both not. -/
theorem presentObject?_of_keys_eq {fs gs : Table Node} (hkeys : fs.keys = gs.keys) :
    (presentObject? rules path (some (.object fs)) = none
        ∧ presentObject? rules path (some (.object gs)) = none)
      ∨ (presentObject? rules path (some (.object fs)) = some fs
        ∧ presentObject? rules path (some (.object gs)) = some gs) := by
  have hempty : fs.isEmpty = gs.isEmpty := by
    have hmap := congrArg List.isEmpty hkeys
    rwa [Table.keys, Table.keys, List.isEmpty_map, List.isEmpty_map] at hmap
  rw [Node.presentObject?_object, Node.presentObject?_object, hempty]
  split
  · exact Or.inr ⟨rfl, rfl⟩
  · exact Or.inl ⟨rfl, rfl⟩

/-- The fields of objects do not differ if the objects do not, wherever they are. -/
theorem onlyMatches_ofFields_of_objects {typeName : String} {fields : List (String × FieldShape)}
    {fs gs : Table Node} (hkeys : fs.keys = gs.keys)
    (h : ∀ o name path, OnlyMatches (ofField rules o name path (some (.object fs))
      (some (.object gs)) (.object typeName fields))) :
    OnlyMatches (ofFields rules o path fs gs fields) := by
  cases fs with
  | nil =>
    -- objects without fields have none to differ in
    obtain rfl : gs = [] := List.map_eq_nil_iff.mp hkeys.symm
    exact onlyMatches_of_fields rfl fun _ _ _ _ _ hn => by simp at hn
  | cons f fs =>
    cases gs with
    | nil => exact absurd hkeys (by simp [Table.keys])
    | cons g gs =>
      have hpresent : ∀ (e : String × Node) (t : Table Node),
          presentObject? rules path (some (.object (e :: t))) = some (e :: t) := by
        intro e t
        rw [Node.presentObject?_object, List.isEmpty_cons, Bool.not_false, Bool.or_true,
          if_pos rfl]
      have hfield := h o "" path
      rw [ofField.eq_def] at hfield
      dsimp only at hfield
      rwa [hpresent, hpresent] at hfield

/-- Sides whose members agree have members of the same identities. -/
theorem isSome_lookup_byIdentity_eq {typeName : String} {fields : List (String × FieldShape)}
    {ns ms : List Node} {pairs : List (Node × Node)}
    (left : ∀ n, n ∈ ns ↔ n ∈ pairs.map Prod.fst) (right : ∀ m, m ∈ ms ↔ m ∈ pairs.map Prod.snd)
    (agree : ∀ p ∈ pairs, Node.Agree (.object typeName fields) p.1 p.2) (identity k : String) :
    ((byIdentity identity ns).lookup k).isSome = ((byIdentity identity ms).lookup k).isSome := by
  rw [Bool.eq_iff_iff, Node.isSome_lookup_byIdentity_iff, Node.isSome_lookup_byIdentity_iff]
  have hpairs := Node.Agree.exists_iff_of_pairs (P := fun n => ∃ fs, n = .object fs
    ∧ identityKey identity fs = k) left right fun p hp => ?_
  · simpa [exists_and_left, exists_comm] using hpairs
  obtain ⟨fs, gs, hfs, hgs, -⟩ := (agree p hp).exists_objects
  have hkey := agree p hp
  rw [hfs, hgs] at hkey ⊢
  simp [hkey.identityKey_eq identity]

/-- Members of the same identities do not differ if those of one identity have no fields that do. -/
theorem onlyMatches_identified {typeName identity : String} {fields : List (String × FieldShape)}
    {ns ms : List Node} {R : Table Node → Table Node → Prop}
    (h : ∀ k, Option.Rel R ((byIdentity identity ns).lookup k) ((byIdentity identity ms).lookup k))
    (hR : ∀ {fs gs}, R fs gs → ∀ o, OnlyMatches (ofFields rules o path fs gs fields)) :
    OnlyMatches (ofField rules o name path (some (.collection ns)) (some (.collection ms))
      (.objects typeName fields (some identity))) := by
  rw [ofField_objects_eq_sides]
  refine .sides (nodup_keys_byIdentity identity _) (nodup_keys_byIdentity identity _) fun k => ?_
  have hk := h k
  show OnlyMatches (ofSides _ _ _ _ _ k ((byIdentity identity ns).lookup k)
    ((byIdentity identity ms).lookup k))
  generalize (byIdentity identity ns).lookup k = fs at hk ⊢
  generalize (byIdentity identity ms).lookup k = gs at hk ⊢
  cases hk with
  | none => exact .nil
  | some hfields => exact List.forall_mem_cons.mpr ⟨rfl, hR hfields _⟩

/-- Members of one identity on both sides are members of the two collections. -/
theorem rel_lookup_byIdentity {identity k : String} {ns ms : List Node}
    {R : Table Node → Table Node → Prop}
    (hsome : ((byIdentity identity ns).lookup k).isSome
      = ((byIdentity identity ms).lookup k).isSome)
    (h : ∀ fs gs, .object fs ∈ ns → .object gs ∈ ms →
      identityKey identity fs = identityKey identity gs → R fs gs) :
    Option.Rel R ((byIdentity identity ns).lookup k) ((byIdentity identity ms).lookup k) := by
  cases hfs : (byIdentity identity ns).lookup k with
  | none =>
    cases hgs : (byIdentity identity ms).lookup k with
    | none => exact .none
    | some gs => simp [hfs, hgs] at hsome
  | some fs =>
    cases hgs : (byIdentity identity ms).lookup k with
    | none => simp [hfs, hgs] at hsome
    | some gs =>
      obtain ⟨hfmem, hfkey⟩ := Node.exists_of_mem_byIdentity (List.mem_of_lookup_eq_some hfs)
      obtain ⟨hgmem, hgkey⟩ := Node.exists_of_mem_byIdentity (List.mem_of_lookup_eq_some hgs)
      exact .some (h fs gs hfmem hgmem (hfkey.symm.trans hgkey))

/-- **Nodes that agree do not differ**: of their fields and members none is on one side only, and
no leaves of theirs have different keys. -/
theorem onlyMatches_ofField {s : FieldShape} {n m : Node} (h : Node.Agree s n m) :
    ∀ o name path, OnlyMatches (ofField rules o name path (some n) (some m) s) := by
  induction h with
  | leaf =>
    intro o name path
    rw [ofField_leaf_eq_nil]
    exact .nil
  | object _ keys _ _ ih =>
    intro o name path
    rw [ofField.eq_def]
    dsimp only
    rcases presentObject?_of_keys_eq keys with ⟨hfs, hgs⟩ | ⟨hfs, hgs⟩
    · rw [hfs, hgs]
      exact .nil
    · rw [hfs, hgs]
      exact onlyMatches_of_fields keys ih
  | @collection s element ns ms pairs declared left right agree identities _ ihidentity =>
    intro o name path
    have hkeys : ∀ k, k ∈ ns.map Node.key ↔ k ∈ ms.map Node.key := by
      intro k
      rw [List.mem_map, List.mem_map]
      exact Node.Agree.exists_iff_of_pairs left right fun p hp => by rw [(agree p hp).key_eq]
    cases s with
    | leaf | object | free => simp [FieldShape.element?] at declared
    | leaves kind =>
      rw [ofField]
      exact ofSets_eq_nil hkeys ▸ .nil
    | objects typeName fields identity? =>
    cases identity? with
    | none =>
      rw [ofField]
      exact ofSets_eq_nil hkeys ▸ .nil
    | some identity =>
      obtain rfl := Option.some.inj declared
      refine onlyMatches_identified (fun k => rel_lookup_byIdentity
        (isSome_lookup_byIdentity_eq left right agree identity k) fun fs gs hfs hgs hkey _ => ?_) id
      obtain ⟨_, _, hf, hg, hkeys⟩ := (identities identity rfl fs gs hfs hgs hkey).exists_objects
      obtain rfl := Node.object.inj hf
      obtain rfl := Node.object.inj hg
      exact onlyMatches_ofFields_of_objects hkeys (ihidentity identity rfl fs gs hfs hgs hkey)
  | @free ms canonical =>
    intro o name path
    show OnlyMatches (ofFree rules o path ms ms)
    rw [ofFree_eq_map, FieldChange.ofFree_self canonical]
    exact .nil

end Finding

end SnapshotDiff
