import SnapshotDiff.Proofs.Change.Congruence
import SnapshotDiff.Proofs.Finding.Quiet
import SnapshotDiff.Proofs.Node.Discerned

/-!
# What a comparison without differences tells

If a comparison finds nothing but members on both sides, then collections have the same members on
both sides, free objects have the same members but for `null` and the signs of zeros, and what is on
one side only holds nothing.

## Main results

* `Finding.OnlyMatches.mem_keys_iff`, `Finding.OnlyMatches.rel_byIdentity` — members are on both
  sides or on neither.
* `Finding.eq_of_ofFreeValues_eq_nil` — values in free objects are equal, if nothing is overlooked.
* `Finding.holdsNothing_of_onlyMatches` — what does not differ from nothing holds nothing.
-/

namespace Option

variable {α β : Type} {R S : α → β → Prop} {a : Option α} {b : Option β}

theorem Rel.imp_of_mem (h : Rel R a b) (himp : ∀ x ∈ a, ∀ y ∈ b, R x y → S x y) : Rel S a b := by
  cases h with
  | none => exact .none
  | some h => exact .some (himp _ rfl _ rfl h)

theorem Rel.swap (h : Rel R a b) : Rel (fun y x => R x y) b a := by
  cases h with
  | none => exact .none
  | some h => exact .some h

end Option

namespace SnapshotDiff

open Node (Fits)

namespace Finding

variable {rules : Rules} {o : Owner} {name path typeName : String} {s : FieldShape}
  {fields : List (String × FieldShape)}

/-! ### What matches alone tell -/

/-- Changes of fields are no matches. -/
theorem OnlyMatches.eq_nil_of_fields {cs : List FieldChange} (h : OnlyMatches (cs.map (field o))) :
    cs = [] := by
  cases cs with
  | nil => rfl
  | cons c cs => exact absurd (h _ List.mem_cons_self) (by simp [match?])

theorem eq_none_of_onlyMatches_ofValues {a b : Option Json}
    (h : OnlyMatches (ofValues o name path a b false)) : a = none ∧ b = none := by
  rw [ofValues_eq_map] at h
  rcases FieldChange.ofValues_eq_nil_iff.mp h.eq_nil_of_fields with hnone | ⟨-, -, hfalse⟩
  · exact hnone
  · cases hfalse

/-- If a comparison member by member finds matches only, a member is on both sides or on neither,
and the members do not differ. -/
theorem OnlyMatches.rel_of_sides {α : Type} {json : α → Json}
    {both : String → α → α → List Finding} {olds news : List (String × α)}
    (hold : (olds.map Prod.fst).Nodup) (hnew : (news.map Prod.fst).Nodup)
    (h : OnlyMatches (Finding.sides (ofSides o typeName path json both) olds news)) (key : String) :
    Option.Rel (fun a b => OnlyMatches (both key a b)) (olds.lookup key) (news.lookup key) := by
  have hkey : OnlyMatches (ofSides o typeName path json both key (olds.lookup key)
      (news.lookup key)) := by
    rw [sides_eq_flatMap hold hnew] at h
    by_cases hmem : key ∈ sideKeys olds news
    · exact fun f hf => h f (List.mem_flatMap.mpr ⟨key, hmem, hf⟩)
    · rw [mem_sideKeys, not_or] at hmem
      rw [List.lookup_eq_none_iff_notMem.mpr hmem.1, List.lookup_eq_none_iff_notMem.mpr hmem.2]
      exact .nil
  -- a member on one side only is no match
  generalize olds.lookup key = a at hkey ⊢
  generalize news.lookup key = b at hkey ⊢
  cases a with
  | none =>
    cases b with
    | none => exact .none
    | some b => exact absurd (hkey _ List.mem_cons_self) (by simp [ofMember, match?])
  | some a =>
    cases b with
    | none => exact absurd (hkey _ List.mem_cons_self) (by simp [ofMember, match?])
    | some b => exact .some hkey

/-- Sets of which only matches are found have members with the same keys. -/
theorem OnlyMatches.mem_keys_iff {ns ms : List Node}
    (h : OnlyMatches (ofSets o typeName path ns ms)) (k : String) :
    k ∈ ns.map Node.key ↔ k ∈ ms.map Node.key := by
  rw [ofSets_eq_sides] at h
  have hrel := h.rel_of_sides (nodup_keys_byKey ns) (nodup_keys_byKey ms) k
  rw [← Node.isSome_lookup_byKey_iff, ← Node.isSome_lookup_byKey_iff]
  generalize (byKey ns).lookup k = a at hrel ⊢
  generalize (byKey ms).lookup k = b at hrel ⊢
  cases hrel <;> simp

/-- Of members with an identity only matches are found if each identity is on both sides or on
neither, and nothing else is found on the fields of its members. -/
theorem OnlyMatches.rel_byIdentity {old new : Option Node} {identity : String}
    (h : OnlyMatches (ofField rules o name path old new (.objects typeName fields (some identity))))
    (k : String) : Option.Rel
      (fun fs gs => OnlyMatches (ofFields rules (o.member typeName path k) path fs gs fields))
      ((byIdentity identity (members old)).lookup k)
      ((byIdentity identity (members new)).lookup k) := by
  rw [ofField_objects_eq_sides] at h
  have hrel :=
    h.rel_of_sides (nodup_keys_byIdentity identity _) (nodup_keys_byIdentity identity _) k
  exact hrel.imp_of_mem fun _ _ _ _ hmatch f hf => hmatch f (List.mem_cons_of_mem _ hf)

/-! ### Free objects -/

/-- Values that count as equal are one value, whether or not they are `null`. -/
theorem eq_of_same?_present? {v w : Json} (hequal : Json.same v w → v = w)
    (h : Json.same? (present? (some v)) (present? (some w))) : v = w := by
  have hpresent : ∀ {v : Json}, v ≠ .null → present? (some v) = some v := fun hne =>
    present?_eq_some_iff.mpr ⟨rfl, hne⟩
  by_cases hv : v = .null
  · subst hv
    by_contra hne
    rw [hpresent (Ne.symm hne)] at h
    simp [present?] at h
  · rw [hpresent hv] at h
    by_cases hw : w = .null
    · subst hw
      simp [present?] at h
    · rw [hpresent hw] at h
      exact hequal h

/-- Beside nothing, only nothing is overlooked. -/
theorem present?_eq_none_of_ofFreeValues {a b : Option Json} (hnone : a = none ∨ b = none)
    (h : FieldChange.ofFreeValues rules name path (present? a) (present? b) = []) :
    present? a = none ∧ present? b = none := by
  have hsame : Json.same? (present? a) (present? b) := by
    refine FieldChange.same?_of_ofFreeValues_eq_nil (fun ms ns hms hns => ?_) h
    rcases hnone with rfl | rfl
    · simp [present?] at hms
    · simp [present?] at hns
  rcases hnone with rfl | rfl
  · refine ⟨rfl, ?_⟩
    cases hb : present? b with
    | none => rfl
    | some b => rw [hb] at hsame; exact absurd hsame Bool.false_ne_true
  · refine ⟨?_, rfl⟩
    cases ha : present? a with
    | none => rfl
    | some a => rw [ha] at hsame; exact absurd hsame Bool.false_ne_true

/-- Nothing is found in two values of a free object only if they are one value. -/
theorem eq_of_ofFreeValues_eq_nil (hreport : ∀ p, rules.reportable p) (v : Json) :
    ∀ (name path : String) {w : Json}, v.Canonical → w.Canonical → Json.Discerned v w →
      FieldChange.ofFreeValues rules name path (present? (some v)) (present? (some w)) = [] →
      v = w := by
  have hothers : ∀ {v w : Json} {name path : String},
      v.members? = none ∨ w.members? = none → (Json.same v w → v = w) →
      FieldChange.ofFreeValues rules name path (present? (some v)) (present? (some w)) = [] →
      v = w := by
    intro v w name path hother hequal h
    refine eq_of_same?_present? hequal (FieldChange.same?_of_ofFreeValues_eq_nil ?_ h)
    intro ms ns hms hns
    have hms := Option.some.inj (present?_eq_some_iff.mp hms).1
    have hns := Option.some.inj (present?_eq_some_iff.mp hns).1
    rw [hms, hns] at hother
    simp at hother
  induction v using Json.memberInduction with
  | other v hv =>
    intro name path w _ _ hdiscerned h
    cases hdiscerned with
    | objects => simp at hv
    | others other equal => exact hothers other equal h
  | object ms ih =>
    intro name path w hvc hwc hdiscerned h
    cases hdiscerned with
    | others other equal => exact hothers other equal h
    | @objects _ ns presence members =>
      rw [Json.canonical_obj_iff] at hvc hwc
      change FieldChange.ofFree rules path ms ns = [] at h
      rw [FieldChange.ofFree_eq_sides, sides_eq_nil_iff FieldChange.ofFreeSides_none_none
        hvc.1.nodup_keys hwc.1.nodup_keys] at h
      refine congrArg Json.obj (Table.eq_of_get? hvc.1 hwc.1 fun key => ?_)
      have hkey := h key
      rw [FieldChange.ofFreeSides, if_pos (hreport _), ← Table.get?_eq_lookup,
        ← Table.get?_eq_lookup] at hkey
      cases hv : Table.get? ms key with
      | none =>
        rw [hv] at hkey
        obtain ⟨hnone, hnone'⟩ := present?_eq_none_of_ofFreeValues (Or.inl rfl) hkey
        rw [← hv]
        exact presence key (hv ▸ hnone) hnone'
      | some v =>
        cases hw : Table.get? ns key with
        | none =>
          rw [hw] at hkey
          obtain ⟨hnone, hnone'⟩ := present?_eq_none_of_ofFreeValues (Or.inr rfl) hkey
          rw [← hv, ← hw]
          exact presence key hnone (hw ▸ hnone')
        | some w =>
          rw [hv, hw] at hkey
          have hmem := Table.mem_of_get?_eq_some hv
          have hvalue : v = w := ih _ hmem _ _ (hvc.2 _ hmem)
            (hwc.2 _ (Table.mem_of_get?_eq_some hw)) (members key v w hv hw) hkey
          rw [hvalue]

/-! ### Nothing beside something -/

/-- Leaves differ from nothing. -/
theorem leaf?_eq_none_of_onlyMatches {a b : Option (Json × String)} (hnone : a = none ∨ b = none)
    (h : OnlyMatches (ofLeaves o name path a b)) : a = none ∧ b = none := by
  rw [ofLeaves_eq_map] at h
  have hnil := h.eq_nil_of_fields
  rcases hnone with rfl | rfl
  · cases b with
    | none => exact ⟨rfl, rfl⟩
    | some b => simp [FieldChange.ofLeaves, FieldChange.ofValues] at hnil
  · cases a with
    | none => exact ⟨rfl, rfl⟩
    | some a => simp [FieldChange.ofLeaves, FieldChange.ofValues] at hnil

/-- Collections differ from empty ones unless they are empty. -/
theorem eq_nil_of_mem_keys_iff {ns ms : List Node} (hnil : ns = [] ∨ ms = [])
    (h : ∀ k, k ∈ ns.map Node.key ↔ k ∈ ms.map Node.key) : ns = [] ∧ ms = [] := by
  rcases hnil with rfl | rfl
  · refine ⟨rfl, List.eq_nil_iff_forall_not_mem.mpr fun m hm => ?_⟩
    exact absurd ((h _).mpr (List.mem_map_of_mem hm)) (by simp)
  · refine ⟨List.eq_nil_iff_forall_not_mem.mpr fun n hn => ?_, rfl⟩
    exact absurd ((h _).mp (List.mem_map_of_mem hn)) (by simp)

theorem eq_nil_of_rel_byIdentity {ns ms : List Node} {identity : String}
    {R : String → Table Node → Table Node → Prop} (hnil : ns = [] ∨ ms = [])
    (hns : ∀ n ∈ ns, ∃ fs, n = Node.object fs) (hms : ∀ m ∈ ms, ∃ gs, m = Node.object gs)
    (h : ∀ k, Option.Rel (R k) ((byIdentity identity ns).lookup k)
      ((byIdentity identity ms).lookup k)) : ns = [] ∧ ms = [] := by
  -- members on one side have an identity that the other side has as well
  have hiff : ∀ k, (∃ fs, .object fs ∈ ns ∧ identityKey identity fs = k)
      ↔ ∃ gs, .object gs ∈ ms ∧ identityKey identity gs = k := by
    intro k
    have hk := h k
    rw [← Node.isSome_lookup_byIdentity_iff, ← Node.isSome_lookup_byIdentity_iff]
    generalize (byIdentity identity ns).lookup k = a at hk ⊢
    generalize (byIdentity identity ms).lookup k = b at hk ⊢
    cases hk <;> simp
  rcases hnil with rfl | rfl
  · refine ⟨rfl, List.eq_nil_iff_forall_not_mem.mpr fun m hm => ?_⟩
    obtain ⟨gs, rfl⟩ := hms m hm
    obtain ⟨fs, hfs, -⟩ := (hiff _).mpr ⟨gs, hm, rfl⟩
    exact absurd hfs List.not_mem_nil
  · refine ⟨List.eq_nil_iff_forall_not_mem.mpr fun n hn => ?_, rfl⟩
    obtain ⟨fs, rfl⟩ := hns n hn
    obtain ⟨gs, hgs, -⟩ := (hiff _).mp ⟨fs, hn, rfl⟩
    exact absurd hgs List.not_mem_nil

/-- Free objects differ from empty ones unless all their members are `null`. -/
theorem eq_null_of_ofFree_eq_nil (hreport : ∀ p, rules.reportable p) {ms ns : Table Json}
    (hms : (Json.obj ms).Canonical) (hns : (Json.obj ns).Canonical) (hnil : ms = [] ∨ ns = [])
    (h : FieldChange.ofFree rules path ms ns = []) :
    (∀ m ∈ ms, m.2 = .null) ∧ ∀ m ∈ ns, m.2 = .null := by
  rw [Json.canonical_obj_iff] at hms hns
  rw [FieldChange.ofFree_eq_sides, sides_eq_nil_iff FieldChange.ofFreeSides_none_none
    hms.1.nodup_keys hns.1.nodup_keys] at h
  have hnone : ∀ key, present? (ms.lookup key) = none ∧ present? (ns.lookup key) = none := by
    intro key
    have hkey := h key
    rw [FieldChange.ofFreeSides, if_pos (hreport _)] at hkey
    refine present?_eq_none_of_ofFreeValues ?_ hkey
    rcases hnil with rfl | rfl
    · exact Or.inl rfl
    · exact Or.inr rfl
  have hnull : ∀ {ls : Table Json}, (ls.map Prod.fst).Nodup →
      (∀ key, present? (ls.lookup key) = none) → ∀ m ∈ ls, m.2 = .null := by
    intro ls hls hpresent m hm
    by_contra hne
    have hlookup := (List.lookup_eq_some_iff_mem hls).mpr (show (m.1, m.2) ∈ ls from hm)
    have hsome := present?_eq_some_iff.mpr ⟨hlookup, hne⟩
    rw [hpresent] at hsome
    cases hsome
  exact ⟨hnull hms.1.nodup_keys fun key => (hnone key).1,
    hnull hns.1.nodup_keys fun key => (hnone key).2⟩

/-- Only empty objects do not count as present. -/
theorem isEmpty_of_presentObject? {fs : Table Node}
    (h : presentObject? rules path (some (.object fs)) = none) : fs.isEmpty := by
  rw [Node.presentObject?_object] at h
  simp only [ite_eq_right_iff, reduceCtorEq, imp_false, Bool.not_eq_true, Bool.or_eq_false_iff,
    Bool.not_eq_false'] at h
  exact h.2

theorem holdsNothing_of_leaf? {kind : Leaf} {n : Option Node}
    (hn : ∀ m ∈ n, Fits Json.Canonical (.leaf kind) m) (h : n.bind Node.leaf? = none) :
    ∀ m ∈ n, m.holdsNothing := by
  intro m hm
  obtain rfl := Option.mem_def.mp hm
  cases hn m rfl with
  | leaf _ => cases h

theorem holdsNothing_of_presentObject? {n : Option Node}
    (hn : ∀ m ∈ n, Fits Json.Canonical (.object typeName fields) m)
    (h : presentObject? rules path n = none) : ∀ m ∈ n, m.holdsNothing := by
  intro m hm
  obtain rfl := Option.mem_def.mp hm
  obtain ⟨fs, rfl⟩ := (hn m rfl).exists_object
  exact isEmpty_of_presentObject? h

theorem holdsNothing_of_members {n : Option Node} {element : FieldShape}
    (hs : s.element? = some element) (hn : ∀ m ∈ n, Fits Json.Canonical s m)
    (h : members n = []) : ∀ m ∈ n, m.holdsNothing := by
  intro m hm
  obtain rfl := Option.mem_def.mp hm
  obtain ⟨ms, rfl, -⟩ := (hn m rfl).exists_collection hs
  obtain rfl : ms = [] := h
  rfl

theorem holdsNothing_of_free? {n : Option Node} (hn : ∀ m ∈ n, Fits Json.Canonical .free m)
    (h : ∀ m ∈ (n.bind Node.free?).getD [], m.2 = .null) : ∀ m ∈ n, m.holdsNothing := by
  intro m hm
  obtain rfl := Option.mem_def.mp hm
  cases hn m rfl with
  | @free ms _ =>
    exact List.all_eq_true.mpr fun e he => (Json.isNull_eq_true_iff _).mpr (h e he)

/-- What does not differ from nothing holds nothing. -/
theorem holdsNothing_of_onlyMatches (hreport : ∀ p, rules.reportable p) {old new : Option Node}
    (hold : ∀ n ∈ old, Fits Json.Canonical s n) (hnew : ∀ m ∈ new, Fits Json.Canonical s m)
    (hnone : old = none ∨ new = none) (h : OnlyMatches (ofField rules o name path old new s)) :
    (∀ n ∈ old, n.holdsNothing) ∧ ∀ m ∈ new, m.holdsNothing := by
  have hmembers : members old = [] ∨ members new = [] := by
    rcases hnone with rfl | rfl
    · exact Or.inl rfl
    · exact Or.inr rfl
  cases s with
  | leaf kind =>
    rw [ofField] at h
    obtain ⟨hold', hnew'⟩ := leaf?_eq_none_of_onlyMatches
      (hnone.imp (fun h => by rw [h]; rfl) fun h => by rw [h]; rfl) h
    exact ⟨holdsNothing_of_leaf? hold hold', holdsNothing_of_leaf? hnew hnew'⟩
  | object typeName fields =>
    have hpresent :
        presentObject? rules path old = none ∧ presentObject? rules path new = none := by
      rw [ofField.eq_def] at h
      dsimp only at h
      cases hfs : presentObject? rules path old with
      | none =>
        rw [hfs] at h
        exact ⟨rfl, Option.map_eq_none_iff.mp (eq_none_of_onlyMatches_ofValues h).2⟩
      | some fs =>
        rcases hnone with rfl | rfl
        · cases hfs
        · rw [hfs] at h
          cases (eq_none_of_onlyMatches_ofValues h).1
    exact ⟨holdsNothing_of_presentObject? hold hpresent.1,
      holdsNothing_of_presentObject? hnew hpresent.2⟩
  | leaves kind =>
    rw [ofField] at h
    obtain ⟨hold', hnew'⟩ := eq_nil_of_mem_keys_iff hmembers h.mem_keys_iff
    exact ⟨holdsNothing_of_members rfl hold hold', holdsNothing_of_members rfl hnew hnew'⟩
  | objects typeName fields identity =>
    have hnil : members old = [] ∧ members new = [] := by
      cases identity with
      | none =>
        rw [ofField] at h
        exact eq_nil_of_mem_keys_iff hmembers h.mem_keys_iff
      | some identity =>
        have hobjects : ∀ {n : Option Node},
            (∀ m ∈ n, Fits Json.Canonical (.objects typeName fields (some identity)) m) →
              ∀ m ∈ members n, ∃ fs, m = .object fs :=
          fun hn m hm => (Fits.of_mem_members_objects hn m hm).exists_object
        exact eq_nil_of_rel_byIdentity hmembers (hobjects hold) (hobjects hnew) h.rel_byIdentity
    exact ⟨holdsNothing_of_members rfl hold hnil.1, holdsNothing_of_members rfl hnew hnil.2⟩
  | free =>
    have hnil : (old.bind Node.free?).getD [] = [] ∨ (new.bind Node.free?).getD [] = [] := by
      rcases hnone with rfl | rfl
      · exact Or.inl rfl
      · exact Or.inr rfl
    rw [ofField, ofFree_eq_map] at h
    obtain ⟨hold', hnew'⟩ := eq_null_of_ofFree_eq_nil hreport (Fits.canonical_free hold)
      (Fits.canonical_free hnew) hnil h.eq_nil_of_fields
    exact ⟨holdsNothing_of_free? hold hold', holdsNothing_of_free? hnew hnew'⟩

end Finding

end SnapshotDiff
