import Mathlib.Data.List.Perm.Basic
import SnapshotDiff.Finding
import SnapshotDiff.Proofs.Json.Same
import SnapshotDiff.Proofs.List.Distinct
import SnapshotDiff.Proofs.Table

/-!
# Two sides, key by key

Collections and free objects are compared in one way: the old members in their order, each with the
new member under its key, and then the new members whose key is not among the old ones.  Up to the
order of what comes out, this is a walk over all keys, and then it does not matter which side is
called old.

## Main definitions

* `Finding.sides` — two lists of members compared key by key.
* `Finding.ofSides`, `Finding.ofFreeSides` — what is found of one member, or of one free value.

## Main results

* `Finding.sides_perm` — the comparison as a walk over any list that has all keys.
* `Finding.sides_swap_perm` — the order of the sides matters only to the order of the results.
* `Finding.sides_eq_nil_iff`, `Finding.sides_perm_sides` — comparisons are compared key by key.
* `Finding.ofFields_eq_flatMap`, `Finding.ofField_objects_eq_sides`, `Finding.ofSets_eq_sides`,
  `Finding.ofFree_eq_sides` — the walks of the comparison in this form.
-/

namespace SnapshotDiff

namespace Finding

section Sides

variable {α β : Type} {f : String → Option α → Option α → List β} {olds news : List (String × α)}

/-- The old members in their order, each with the new member under its key, and then the members
that only the new side has. -/
def sides (f : String → Option α → Option α → List β) (olds news : List (String × α)) : List β :=
  (olds.flatMap fun m => f m.1 (some m.2) (news.lookup m.1))
    ++ (onlyIn news olds).flatMap fun m => f m.1 none (some m.2)

/-- The keys in the order in which they are walked. -/
def sideKeys (olds news : List (String × α)) : List String :=
  olds.map Prod.fst ++ (onlyIn news olds).map Prod.fst

theorem mem_keys_onlyIn {key : String} : key ∈ (onlyIn news olds).map Prod.fst
    ↔ key ∈ news.map Prod.fst ∧ key ∉ olds.map Prod.fst := by
  unfold onlyIn
  constructor
  · intro h
    obtain ⟨m, hm, rfl⟩ := List.mem_map.mp h
    obtain ⟨hm, hnone⟩ := List.mem_filter.mp hm
    rw [Option.isNone_iff_eq_none, List.lookup_eq_none_iff_notMem] at hnone
    exact ⟨List.mem_map_of_mem hm, hnone⟩
  · rintro ⟨hnew, hold⟩
    obtain ⟨m, hm, rfl⟩ := List.mem_map.mp hnew
    refine List.mem_map_of_mem (List.mem_filter.mpr ⟨hm, ?_⟩)
    rwa [Option.isNone_iff_eq_none, List.lookup_eq_none_iff_notMem]

theorem mem_sideKeys {key : String} :
    key ∈ sideKeys olds news ↔ key ∈ olds.map Prod.fst ∨ key ∈ news.map Prod.fst := by
  rw [sideKeys, List.mem_append, mem_keys_onlyIn]
  tauto

theorem nodup_sideKeys (hold : (olds.map Prod.fst).Nodup) (hnew : (news.map Prod.fst).Nodup) :
    (sideKeys olds news).Nodup := by
  refine List.nodup_append.mpr ⟨hold, hnew.sublist (List.filter_sublist.map _), ?_⟩
  rintro key hkey _ hmem rfl
  exact (mem_keys_onlyIn.mp hmem).2 hkey

/-- The comparison as a walk over the keys. -/
theorem sides_eq_flatMap (hold : (olds.map Prod.fst).Nodup) (hnew : (news.map Prod.fst).Nodup) :
    sides f olds news
      = (sideKeys olds news).flatMap fun k => f k (olds.lookup k) (news.lookup k) := by
  rw [sides, sideKeys, List.flatMap_append, List.flatMap_map, List.flatMap_map]
  congr 1
  · apply List.flatMap_congr
    intro m hm
    rw [(List.lookup_eq_some_iff_mem hold).mpr (show (m.1, m.2) ∈ olds from hm)]
  · apply List.flatMap_congr
    intro m hm
    obtain ⟨hm, hnone⟩ := List.mem_filter.mp hm
    rw [(List.lookup_eq_some_iff_mem hnew).mpr (show (m.1, m.2) ∈ news from hm),
      Option.isNone_iff_eq_none.mp hnone]

/-- **The comparison as a walk over any list that has all keys**, up to the order of what is
found. -/
theorem sides_perm (hf : ∀ k, f k none none = []) (hold : (olds.map Prod.fst).Nodup)
    (hnew : (news.map Prod.fst).Nodup) {keys : List String} (hkeys : keys.Nodup)
    (hsub : ∀ k ∈ sideKeys olds news, k ∈ keys) :
    (sides f olds news).Perm (keys.flatMap fun k => f k (olds.lookup k) (news.lookup k)) := by
  -- of the given keys those that no side has contribute nothing
  have hperm : (keys.filter fun k => (sideKeys olds news).contains k).Perm
      (sideKeys olds news) := by
    refine (List.perm_ext_iff_of_nodup (hkeys.filter _) (nodup_sideKeys hold hnew)).mpr fun k => ?_
    rw [List.mem_filter, List.contains_iff_mem]
    exact ⟨fun h => h.2, fun h => ⟨hsub k h, h⟩⟩
  have hrest : ∀ k ∈ keys, (sideKeys olds news).contains k = false →
      f k (olds.lookup k) (news.lookup k) = [] := by
    intro k _ hk
    have hnot : k ∉ sideKeys olds news := fun h => by simp [h] at hk
    rw [mem_sideKeys, not_or] at hnot
    rw [List.lookup_eq_none_iff_notMem.mpr hnot.1, List.lookup_eq_none_iff_notMem.mpr hnot.2, hf]
  rw [sides_eq_flatMap hold hnew, ← List.flatMap_filter_of_eq_nil hrest]
  exact (hperm.flatMap_right _).symm

/-- **The order of the sides matters only to the order of what is found.** -/
theorem sides_swap_perm (hf : ∀ k, f k none none = []) (hold : (olds.map Prod.fst).Nodup)
    (hnew : (news.map Prod.fst).Nodup) :
    (sides f olds news).Perm (sides (fun k a b => f k b a) news olds) := by
  have hkeys : ∀ k ∈ sideKeys news olds, k ∈ sideKeys olds news := by
    intro k hk
    rw [mem_sideKeys] at hk ⊢
    exact hk.symm
  -- both comparisons are walks over the keys of the first
  have hleft := sides_perm hf hold hnew (nodup_sideKeys hold hnew) fun _ h => h
  have hright :=
    sides_perm (f := fun k a b => f k b a) hf hnew hold (nodup_sideKeys hold hnew) hkeys
  exact hleft.trans hright.symm

/-- Nothing is found if and only if nothing is found under any key. -/
theorem sides_eq_nil_iff (hf : ∀ k, f k none none = []) (hold : (olds.map Prod.fst).Nodup)
    (hnew : (news.map Prod.fst).Nodup) :
    sides f olds news = [] ↔ ∀ k, f k (olds.lookup k) (news.lookup k) = [] := by
  rw [sides_eq_flatMap hold hnew, List.flatMap_eq_nil_iff]
  constructor
  · intro h k
    by_cases hk : k ∈ sideKeys olds news
    · exact h k hk
    · rw [mem_sideKeys, not_or] at hk
      rw [List.lookup_eq_none_iff_notMem.mpr hk.1, List.lookup_eq_none_iff_notMem.mpr hk.2, hf]
  · exact fun h k _ => h k

/-- Two comparisons with the same new side find the same if they do so under every key. -/
theorem sides_perm_sides {olds' : List (String × α)} (hf : ∀ k, f k none none = [])
    (hold : (olds.map Prod.fst).Nodup) (hold' : (olds'.map Prod.fst).Nodup)
    (hnew : (news.map Prod.fst).Nodup)
    (h : ∀ k, (f k (olds.lookup k) (news.lookup k)).Perm (f k (olds'.lookup k) (news.lookup k))) :
    (sides f olds news).Perm (sides f olds' news) := by
  -- all keys of the three lists serve both comparisons
  have hleft : ∀ k ∈ sideKeys olds news,
      k ∈ (sideKeys olds news ++ sideKeys olds' news).eraseDups :=
    fun k hk => List.mem_eraseDups.mpr (List.mem_append_left _ hk)
  have hright : ∀ k ∈ sideKeys olds' news,
      k ∈ (sideKeys olds news ++ sideKeys olds' news).eraseDups :=
    fun k hk => List.mem_eraseDups.mpr (List.mem_append_right _ hk)
  apply (sides_perm hf hold hnew (List.nodup_eraseDups _) hleft).trans
  refine .trans ?_ (sides_perm hf hold' hnew (List.nodup_eraseDups _) hright).symm
  exact List.Perm.flatMap_left _ fun k _ => h k

/-- What is found is found of a member of either side. -/
theorem exists_of_mem_sides {x : β} (hx : x ∈ sides f olds news) :
    ∃ k a b, (∀ m ∈ a, (k, m) ∈ olds) ∧ (∀ m ∈ b, (k, m) ∈ news) ∧ x ∈ f k a b := by
  rcases List.mem_append.mp hx with hx | hx
  · obtain ⟨m, hm, hx⟩ := List.mem_flatMap.mp hx
    refine ⟨_, _, _, fun a ha => Option.some.inj ha ▸ hm, fun b hb => ?_, hx⟩
    exact List.mem_of_lookup_eq_some hb
  · obtain ⟨m, hm, hx⟩ := List.mem_flatMap.mp hx
    refine ⟨_, _, _, fun a ha => by simp at ha, fun b hb => ?_, hx⟩
    exact Option.some.inj hb ▸ (List.mem_filter.mp hm).1

/-- Two comparisons of the same sides find the same if they do so of every member. -/
theorem sides_congr {g : String → Option α → Option α → List β}
    (h : ∀ k a b, (∀ m ∈ a, (k, m) ∈ olds) → (∀ m ∈ b, (k, m) ∈ news) → f k a b = g k a b) :
    sides f olds news = sides g olds news := by
  rw [sides, sides]
  congr 1
  · refine List.flatMap_congr fun m hm => h _ _ _ (fun a ha => Option.some.inj ha ▸ hm) ?_
    exact fun b hb => List.mem_of_lookup_eq_some hb
  · refine List.flatMap_congr fun m hm => h _ _ _ (fun a ha => by simp at ha) fun b hb => ?_
    exact Option.some.inj hb ▸ (List.mem_filter.mp hm).1

/-- If one key only contributes, the comparison is that of its two members. -/
theorem sides_eq_of_key (hf : ∀ k, f k none none = []) (hold : (olds.map Prod.fst).Nodup)
    (hnew : (news.map Prod.fst).Nodup) {key : String}
    (h : ∀ k ∈ sideKeys olds news, k ≠ key → f k (olds.lookup k) (news.lookup k) = []) :
    sides f olds news = f key (olds.lookup key) (news.lookup key) := by
  rw [sides_eq_flatMap hold hnew, List.flatMap_eq_of_nodup (nodup_sideKeys hold hnew) h]
  split
  · rfl
  · next hnot =>
    -- the key is on neither side, and then nothing is found under it
    rw [mem_sideKeys, not_or] at hnot
    rw [List.lookup_eq_none_iff_notMem.mpr hnot.1, List.lookup_eq_none_iff_notMem.mpr hnot.2, hf]

/-- What is found of each member on its own can be looked through in the same order. -/
theorem filterMap_sides {γ : Type} (g : β → Option γ) :
    (sides f olds news).filterMap g = sides (fun k a b => (f k a b).filterMap g) olds news := by
  rw [sides, List.filterMap_append, List.filterMap_flatMap, List.filterMap_flatMap, sides]

theorem filter_sides (p : β → Bool) :
    (sides f olds news).filter p = sides (fun k a b => (f k a b).filter p) olds news := by
  rw [sides, List.filter_append, List.filter_flatMap, List.filter_flatMap, sides]

theorem map_sides {γ : Type} (g : β → γ) :
    (sides f olds news).map g = sides (fun k a b => (f k a b).map g) olds news := by
  rw [sides, List.map_append, List.map_flatMap, List.map_flatMap, sides]

/-- Something of a kind is found in one comparison if and only if it is found in another one, if
that is so of each member. -/
theorem exists_mem_sides_congr {γ : Type} {g : String → Option α → Option α → List γ}
    {p : β → Prop} {q : γ → Prop}
    (h : ∀ k a b, (∃ x ∈ f k a b, p x) ↔ ∃ y ∈ g k a b, q y) :
    (∃ x ∈ sides f olds news, p x) ↔ ∃ y ∈ sides g olds news, q y := by
  have hmem : ∀ {δ : Type} {f : String → Option α → Option α → List δ} {r : δ → Prop},
      (∃ x ∈ sides f olds news, r x)
        ↔ (∃ m ∈ olds, ∃ x ∈ f m.1 (some m.2) (news.lookup m.1), r x)
          ∨ ∃ m ∈ onlyIn news olds, ∃ x ∈ f m.1 none (some m.2), r x := by
    intro δ f r
    simp only [sides, List.mem_append, List.mem_flatMap, or_and_right, exists_or]
    constructor
    · rintro (⟨x, ⟨m, hm, hx⟩, hr⟩ | ⟨x, ⟨m, hm, hx⟩, hr⟩)
      · exact Or.inl ⟨m, hm, x, hx, hr⟩
      · exact Or.inr ⟨m, hm, x, hx, hr⟩
    · rintro (⟨m, hm, x, hx, hr⟩ | ⟨m, hm, x, hx, hr⟩)
      · exact Or.inl ⟨x, ⟨m, hm, hx⟩, hr⟩
      · exact Or.inr ⟨x, ⟨m, hm, hx⟩, hr⟩
  simp only [hmem, h]

/-- What is only in one of the lists, as a walk over that list. -/
theorem onlyIn_map_eq_flatMap {γ : Type} (g : String × α → γ) :
    (onlyIn olds news).map g
      = olds.flatMap fun m => if (news.lookup m.1).isNone then [g m] else [] := by
  unfold onlyIn
  induction olds with
  | nil => rfl
  | cons m olds ih =>
    rw [List.filter_cons, List.flatMap_cons, ← ih]
    split <;> rfl

end Sides

/-! ### First members -/

section FirstByKey

variable {α : Type} {ms : List (String × α)} {m : String × α} {seen : List String}

theorem mem_of_mem_firstByKey (h : m ∈ firstByKey seen ms) : m ∈ ms ∧ m.1 ∉ seen := by
  induction ms generalizing seen with
  | nil => simp [firstByKey] at h
  | cons e ms ih =>
    obtain ⟨k, a⟩ := e
    rw [firstByKey] at h
    split at h
    · exact ⟨List.mem_cons_of_mem _ (ih h).1, (ih h).2⟩
    · next hk =>
      rcases List.mem_cons.mp h with rfl | h
      · exact ⟨List.mem_cons_self, by simpa using hk⟩
      · obtain ⟨hm, hseen⟩ := ih h
        exact ⟨List.mem_cons_of_mem _ hm, fun hs => hseen (List.mem_cons_of_mem _ hs)⟩

/-- Of members with one key only the first is left. -/
theorem nodup_keys_firstByKey : ((firstByKey seen ms).map Prod.fst).Nodup := by
  induction ms generalizing seen with
  | nil => exact List.nodup_nil
  | cons e ms ih =>
    obtain ⟨k, a⟩ := e
    rw [firstByKey]
    split
    · exact ih
    · rw [List.map_cons, List.nodup_cons]
      refine ⟨fun h => ?_, ih⟩
      obtain ⟨m, hm, hk⟩ := List.mem_map.mp h
      exact (mem_of_mem_firstByKey hm).2 (hk ▸ List.mem_cons_self)

/-- The first of the members with a key is found under it. -/
theorem lookup_firstByKey (key : String) :
    (firstByKey seen ms).lookup key = if key ∈ seen then none else ms.lookup key := by
  induction ms generalizing seen with
  | nil => simp [firstByKey]
  | cons e ms ih =>
    obtain ⟨k, a⟩ := e
    rw [firstByKey, List.lookup_cons]
    by_cases hk : key = k
    · subst hk
      by_cases hseen : key ∈ seen
      · simp [hseen, ih]
      · simp [hseen]
    · by_cases hseen : k ∈ seen
      · simp [hseen, ih, beq_false_of_ne hk]
      · simp [hseen, ih, hk, beq_false_of_ne hk, List.lookup_cons]

end FirstByKey

variable {rules : Rules} {o : Owner} {typeName path : String}

theorem nodup_keys_byKey (ns : List Node) : ((byKey ns).map Prod.fst).Nodup := nodup_keys_firstByKey

theorem nodup_keys_byIdentity (identity : String) (ns : List Node) :
    ((byIdentity identity ns).map Prod.fst).Nodup := nodup_keys_firstByKey

/-! ### The walks -/

/-- The fields of an object are walked one by one. -/
theorem ofFields_eq_flatMap (old new : Table Node) (fields : List (String × FieldShape)) :
    ofFields rules o path old new fields = fields.flatMap fun f =>
      if rules.reportable (Path.child path f.1) then
        ofField rules o f.1 (Path.child path f.1) (old.get? f.1) (new.get? f.1) f.2
      else [] := by
  induction fields with
  | nil => rw [ofFields]; rfl
  | cons f fields ih => rw [ofFields, ih, List.flatMap_cons]

/-- What is found on a field that is reported is found on the object. -/
theorem mem_ofFields {x : Finding} {old new : Table Node} {f : String × FieldShape}
    (hf : f ∈ fields) (hreport : rules.reportable (Path.child path f.1))
    (hx : x ∈ ofField rules o f.1 (Path.child path f.1) (old.get? f.1) (new.get? f.1) f.2) :
    x ∈ ofFields rules o path old new fields := by
  rw [ofFields_eq_flatMap]
  exact List.mem_flatMap.mpr ⟨f, hf, by rwa [if_pos hreport]⟩

/-- What is found of one member of a collection. -/
def ofSides {α : Type} (o : Owner) (typeName path : String) (json : α → Json)
    (both : String → α → α → List Finding) (key : String) : Option α → Option α → List Finding
  | some a, none => [ofMember o typeName path .removed key (json a)]
  | none, some b => [ofMember o typeName path .added key (json b)]
  | some a, some b => both key a b
  | none, none => []

theorem ofSets_eq_sides (old new : List Node) :
    ofSets o typeName path old new
      = sides (ofSides o typeName path Node.json fun _ _ _ => []) (byKey old) (byKey new) := by
  rw [ofSets, sides, onlyIn_map_eq_flatMap]
  congr 1
  · refine List.flatMap_congr fun m _ => ?_
    cases (byKey new).lookup m.1 <;> rfl
  · exact List.map_eq_flatMap

/-- The findings of a member on both sides: the match, and what is found on its fields. -/
def ofMatch (rules : Rules) (o : Owner) (typeName path : String)
    (fields : List (String × FieldShape)) (key : String) (fs gs : Table Node) : List Finding :=
  matched ⟨o, path⟩ (o.member typeName path key) (Node.object fs).json (Node.object gs).json
    :: ofFields rules (o.member typeName path key) path fs gs fields

theorem ofField_objects_eq_sides (name : String) (old new : Option Node)
    (fields : List (String × FieldShape)) (identity : String) :
    ofField rules o name path old new (.objects typeName fields (some identity))
      = sides (ofSides o typeName path (fun fs => (Node.object fs).json)
          (ofMatch rules o typeName path fields))
        (byIdentity identity (members old)) (byIdentity identity (members new)) := by
  rw [ofField, sides]
  congr 1
  · refine List.flatMap_congr fun m _ => ?_
    cases (byIdentity identity (members new)).lookup m.1 <;> rfl
  · exact List.map_eq_flatMap

/-! ### Free objects -/

theorem present?_eq_some_iff {v : Option Json} {w : Json} :
    present? v = some w ↔ v = some w ∧ w ≠ .null := by
  match v with
  | none => simp [present?]
  | some .null =>
    refine iff_of_false (by simp [present?]) ?_
    rintro ⟨hw, hne⟩
    exact hne (Option.some.inj hw).symm
  | some (.bool _) | some (.int _) | some (.float _) | some (.str _) | some (.arr _)
  | some (.obj _) =>
    refine ⟨fun hw => ⟨hw, ?_⟩, And.left⟩
    rintro rfl
    simp [present?] at hw

theorem mem_of_present?_lookup {ms : Table Json} {k : String} {v : Json}
    (h : present? (ms.lookup k) = some v) : (k, v) ∈ ms :=
  List.mem_of_lookup_eq_some (present?_eq_some_iff.mp h).1

/-- Equal values are there together. -/
theorem rel_present? {v w : Option Json} (h : Option.Rel (fun a b => Json.same a b = true) v w) :
    Option.Rel (fun a b => Json.same a b = true) (present? v) (present? w) := by
  cases h with
  | none => exact .none
  | @some a b hab =>
    cases ha : present? (some a) with
    | none =>
      -- only `null` is left out, and only `null` equals it
      obtain rfl : a = .null := by
        by_contra hne
        rw [present?_eq_some_iff.mpr ⟨rfl, hne⟩] at ha
        cases ha
      obtain rfl : Json.null = b := Json.eq_of_same hab (by simp) (by simp) (by simp)
      exact .none
    | some c =>
      obtain ⟨hac, hne⟩ := present?_eq_some_iff.mp ha
      obtain rfl := Option.some.inj hac
      have hb : b ≠ .null := by
        rintro rfl
        exact hne (Json.eq_of_same (Json.same_symm hab) (by simp) (by simp) (by simp)).symm
      rw [present?_eq_some_iff.mpr ⟨rfl, hb⟩]
      exact .some hab

/-- What is found of two values in a free object, neither of which is `null`. -/
def ofFreeValues (rules : Rules) (o : Owner) (name path : String) :
    Option Json → Option Json → List Finding
  | some (.obj ms), some (.obj ns) => ofFree rules o path ms ns
  | old, new => ofValues o name path old new (Json.same? old new)

/-- What is found under one key of a free object. -/
def ofFreeSides (rules : Rules) (o : Owner) (path key : String) (old new : Option Json) :
    List Finding :=
  if rules.reportable (Path.child path key) then
    ofFreeValues rules o key (Path.child path key) (present? old) (present? new)
  else []

@[simp] theorem ofValues_none_none (name : String) (equal : Bool) :
    ofValues o name path none none equal = [] := by cases equal <;> rfl

@[simp] theorem ofFreeSides_none_none (key : String) :
    ofFreeSides rules o path key none none = [] := by
  have hvalues : ofFreeValues rules o key (Path.child path key) none none = [] := by
    rw [ofFreeValues, ofValues_none_none]
    simp
  unfold ofFreeSides
  split
  · exact hvalues
  · rfl

/-- Whether the values are equal matters only if both are there. -/
theorem ofValues_congr (name : String) {old new : Option Json} {e e' : Bool}
    (h : old.isSome → new.isSome → e = e') :
    ofValues o name path old new e = ofValues o name path old new e' := by
  cases old with
  | none => cases new <;> rfl
  | some v =>
    cases new with
    | none => rfl
    | some w => rw [h rfl rfl]

theorem ofFreeMember_eq_ofFreeValues (name : String) (new : Option Json) (v : Json) :
    ofFreeMember rules o name path new v
      = ofFreeValues rules o name path (present? (some v)) new := by
  cases v with
  | obj ms =>
    rw [ofFreeMember.eq_def, present?]
    · match new with
      | some (.obj ns) => rfl
      | none => rfl
      | some .null | some (.bool _) | some (.int _) | some (.float _) | some (.str _)
      | some (.arr _) => rfl
    · simp
  | null | bool | int | float | str | arr =>
    rw [ofFreeMember, ofFreeValues] <;> simp [present?]

theorem oldMembers_eq_flatMap (old new : Table Json) :
    oldMembers rules o path new old
      = old.flatMap fun m => ofFreeSides rules o path m.1 (some m.2) (new.lookup m.1) := by
  induction old with
  | nil => rw [oldMembers]; rfl
  | cons m old ih =>
    obtain ⟨k, v⟩ := m
    rw [oldMembers, ih, List.flatMap_cons, ofFreeSides, ofFreeMember_eq_ofFreeValues,
      Table.get?_eq_lookup]

theorem newMembers_eq_flatMap (old new : Table Json) :
    newMembers rules o path old new
      = (onlyIn new old).flatMap fun m => ofFreeSides rules o path m.1 none (some m.2) := by
  induction new with
  | nil => rfl
  | cons m new ih =>
    obtain ⟨k, v⟩ := m
    have hvalues : ofFreeSides rules o path k none (some v)
        = if rules.reportable (Path.child path k) then
            ofValues o k (Path.child path k) none (present? (some v)) false
          else [] := by
      -- without an old value there are no two objects to walk into
      have hfree : ∀ w, ofFreeValues rules o k (Path.child path k) none w
          = ofValues o k (Path.child path k) none w false := by
        intro w
        rw [ofFreeValues]
        · exact ofValues_congr k fun h => by simp at h
        · simp
      rw [ofFreeSides, show present? none = none from rfl, hfree]
    have honly : onlyIn ((k, v) :: new) old
        = if (old.lookup k).isNone then (k, v) :: onlyIn new old else onlyIn new old :=
      List.filter_cons
    rw [newMembers, ih, Table.contains_eq_isSome_lookup, honly]
    cases old.lookup k with
    | none => simp [hvalues]
    | some w => simp

/-- The members of a free object are walked as the members of a collection are. -/
theorem ofFree_eq_sides (old new : Table Json) :
    ofFree rules o path old new = sides (ofFreeSides rules o path) old new := by
  rw [ofFree, oldMembers_eq_flatMap, newMembers_eq_flatMap, sides]

end Finding

end SnapshotDiff
