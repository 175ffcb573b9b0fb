import SnapshotDiff.Proofs.Change.Congruence
import SnapshotDiff.Proofs.Change.Sides
import SnapshotDiff.Proofs.Node.Exact

/-!
# Changes that are what their kinds say

A change that adds has a new value only, one that removes an old one, and one that modifies has
both, and they are not equal.  That is so of the changes of single fields, and of the members of a
collection if members with equal values do not differ.

## Main definitions

* `ChangeKind.Describes` — two values are related as the kind says.
* `ItemChange.identities` — the identities of the members that a change is about.
* `ChangeRecord.WellFormed` — what can be relied on in a record.

## Main results

* `FieldChange.describes_of_mem_ofFree` — the changes in a free object describe its values.
* `ItemChange.describes_of_mem_sides` — the changes of members describe their values.
* `ItemChange.pairwise_identities_sides` — no identity is in two changes of a collection.
* `ChangeRecord.size_eq_counts`, `ChangeRecord.of?_self` — changes that are what they say are
  counted by kind, and put into a record again.
-/

namespace SnapshotDiff

/-- The values, which may be absent, are related as the kind says.  No values are related by no
change. -/
inductive ChangeKind.Describes : ChangeKind → (old new : Option Json) → Prop
  | added (w : Json) : Describes .added none (some w)
  | removed (v : Json) : Describes .removed (some v) none
  | modified {v w : Json} (differ : Json.same v w = false) :
    Describes .modified (some v) (some w)

theorem ChangeKind.Describes.isChange {kind : ChangeKind} {old new : Option Json}
    (h : kind.Describes old new) : kind.isChange := by
  cases h <;> rfl

/-! ### Fields -/

namespace FieldChange

open Finding (present? sides mem_of_present?_lookup)

variable {rules : Rules} {name path : String} {c : FieldChange}

/-- The change of a field describes its values if values that are not told apart are equal. -/
theorem describes_of_mem_ofValues {old new : Option Json} {equal : Bool}
    (h : ∀ v w, old = some v → new = some w → equal = false → Json.same v w = false)
    (hc : c ∈ ofValues name path old new equal) : c.kind.Describes c.old c.new := by
  cases old with
  | none =>
    cases new with
    | none => exact absurd hc List.not_mem_nil
    | some w =>
      rw [List.mem_singleton.mp hc]
      exact .added w
  | some v =>
    cases new with
    | none =>
      rw [List.mem_singleton.mp hc]
      exact .removed v
    | some w =>
      rw [ofValues] at hc
      split at hc
      · exact absurd hc List.not_mem_nil
      · next hequal =>
        rw [List.mem_singleton.mp hc]
        exact .modified (h v w rfl rfl (by simpa using hequal))

/-- Leaves of a kind without floating-point numbers have one key if their values are equal. -/
theorem describes_of_mem_ofLeaves {kind : Leaf} (hkind : kind.isExact)
    {old new : Option (Json × String)} (hold : ∀ a ∈ old, kind.key a.1 = .ok a.2)
    (hnew : ∀ b ∈ new, kind.key b.1 = .ok b.2) (hc : c ∈ ofLeaves name path old new) :
    c.kind.Describes c.old c.new := by
  rw [ofLeaves.eq_def] at hc
  split at hc
  · next a b =>
    refine describes_of_mem_ofValues (fun v w hv hw hequal => ?_) hc
    obtain rfl := Option.some.inj hv
    obtain rfl := Option.some.inj hw
    rw [← Bool.not_eq_true]
    intro hsame
    have hkeys := hold a rfl
    rw [Leaf.eq_of_same hkind hkeys hsame, hnew b rfl] at hkeys
    simp [Except.ok.inj hkeys] at hequal
  · next hboth =>
    refine describes_of_mem_ofValues (fun v w hv hw _ => ?_) hc
    obtain ⟨a, rfl, -⟩ := Option.map_eq_some_iff.mp hv
    obtain ⟨b, rfl, -⟩ := Option.map_eq_some_iff.mp hw
    exact absurd rfl (hboth a b rfl)

/-- What one side of an object alone has, or does not hold, is not modified. -/
theorem describes_of_mem_ofSides {old new : Option Json} (hsided : old = none ∨ new = none)
    {equal : Bool} (hc : c ∈ ofValues name path old new equal) : c.kind.Describes c.old c.new := by
  refine describes_of_mem_ofValues (fun v w hv hw _ => ?_) hc
  rcases hsided with rfl | rfl
  · cases hv
  · cases hw

theorem describes_of_mem_ofFreeValues (v : Json) (w : Option Json) : ∀ {name path : String},
    c ∈ ofFreeValues rules name path (some v) w → c.kind.Describes c.old c.new := by
  -- values that are not both objects are told apart by equality
  have hvalues : ∀ {name path : String} {old new : Option Json},
      (∀ ms ns, old = some (.obj ms) → new = some (.obj ns) → False) →
        c ∈ ofFreeValues rules name path old new → c.kind.Describes c.old c.new := by
    intro name path old new hobj hc
    rw [ofFreeValues_eq_ofValues hobj] at hc
    refine describes_of_mem_ofValues (fun v w hv hw hequal => ?_) hc
    rwa [hv, hw] at hequal
  induction v, w using Json.pairInduction with
  | others v w hobjects => exact hvalues hobjects
  | objects ms ns ih =>
    intro name path hc
    rw [ofFreeValues, ofFree_eq_sides] at hc
    obtain ⟨k, a, b, ha, -, hc⟩ := Finding.exists_of_mem_sides hc
    rw [ofFreeSides] at hc
    split at hc
    · cases hold : present? a with
      | none => exact hvalues (fun _ _ h => by rw [hold] at h; cases h) hc
      | some v =>
        rw [hold] at hc
        exact ih _ (ha v (Finding.present?_eq_some_iff.mp hold).1) _ hc
    · exact absurd hc List.not_mem_nil

/-- The changes in a free object describe its values. -/
theorem describes_of_mem_ofFree {old new : Table Json} (hc : c ∈ ofFree rules path old new) :
    c.kind.Describes c.old c.new :=
  @describes_of_mem_ofFreeValues rules c (.obj old) (some (.obj new)) "" path hc

end FieldChange

/-! ### Members of collections -/

namespace ItemChange

open Finding (sides)

variable {α : Type} {json : α → Json} {differ : α → α → Bool} {olds news : List (String × α)}

/-- The changes of members describe their values if members with equal values do not differ. -/
theorem describes_of_mem_sides (hdiffer : ∀ m ∈ olds, ∀ n ∈ news, m.1 = n.1 → differ m.2 n.2 →
      Json.same (json m.2) (json n.2) = false) {i : ItemChange}
    (hi : i ∈ sides (ofSides json differ) olds news) : i.kind.Describes i.old i.new := by
  obtain ⟨k, a, b, ha, hb, hi⟩ := Finding.exists_of_mem_sides hi
  match a, b with
  | none, none => exact absurd hi List.not_mem_nil
  | some a, none =>
    rw [List.mem_singleton.mp hi]
    exact .removed _
  | none, some b =>
    rw [List.mem_singleton.mp hi]
    exact .added _
  | some a, some b =>
    rw [ofSides] at hi
    split at hi
    · next hab =>
      rw [List.mem_singleton.mp hi]
      exact .modified (hdiffer _ (ha a rfl) _ (hb b rfl) rfl hab)
    · exact absurd hi List.not_mem_nil

/-- What the members that the change is about have in a field. -/
def identities (name : String) (i : ItemChange) : List Json :=
  (i.old.toList ++ i.new.toList).filterMap (·.member? name)

/-- The changes have no value of the field in common. -/
def SharesNo (name : String) (i j : ItemChange) : Prop :=
  ∀ v ∈ i.identities name, ∀ w ∈ j.identities name, Json.same v w = false

/-- A value of the field belongs to one of the members that the change is about. -/
theorem exists_of_mem_identities {name key : String} {a b : Option α} {i : ItemChange}
    (hi : i ∈ ofSides json differ key a b) {v : Json} (hv : v ∈ i.identities name) :
    ∃ x, (x ∈ a ∨ x ∈ b) ∧ (json x).member? name = some v := by
  obtain ⟨hold, hnew⟩ := values_of_mem_ofSides hi
  obtain ⟨u, hu, hv⟩ := List.mem_filterMap.mp hv
  rw [hold, hnew, List.mem_append, Option.mem_toList, Option.mem_toList] at hu
  rcases hu with hu | hu
  · obtain ⟨x, hx, rfl⟩ := Option.map_eq_some_iff.mp hu
    exact ⟨x, Or.inl hx, hv⟩
  · obtain ⟨x, hx, rfl⟩ := Option.map_eq_some_iff.mp hu
    exact ⟨x, Or.inr hx, hv⟩

/-- **No identity is in two changes of a collection**, if members with one identity have one key. -/
theorem pairwise_identities_sides {name : String} (hold : (olds.map Prod.fst).Nodup)
    (hnew : (news.map Prod.fst).Nodup)
    (hkeys : ∀ m ∈ olds ++ news, ∀ n ∈ olds ++ news, ∀ v w, (json m.2).member? name = some v →
      (json n.2).member? name = some w → Json.same v w → m.1 = n.1) :
    (sides (ofSides json differ) olds news).Pairwise (SharesNo name) := by
  -- the members that a change under a key is about have this key
  have hmem : ∀ {k : String} {i : ItemChange} {v : Json},
      i ∈ ofSides json differ k (olds.lookup k) (news.lookup k) → v ∈ i.identities name →
        ∃ m ∈ olds ++ news, m.1 = k ∧ (json m.2).member? name = some v := by
    intro k i v hi hv
    obtain ⟨x, hx | hx, hv⟩ := exists_of_mem_identities hi hv
    · exact ⟨(k, x), List.mem_append_left _ (List.mem_of_lookup_eq_some hx), rfl, hv⟩
    · exact ⟨(k, x), List.mem_append_right _ (List.mem_of_lookup_eq_some hx), rfl, hv⟩
  rw [Finding.sides_eq_flatMap hold hnew, List.pairwise_flatMap]
  refine ⟨fun k _ => pairwise_ofSides _ _ _, ?_⟩
  refine (List.nodup_iff_pairwise_ne.mp (Finding.nodup_sideKeys hold hnew)).imp fun {k l} hkl => ?_
  intro i hi j hj v hv w hw
  obtain ⟨m, hm, rfl, hmv⟩ := hmem hi hv
  obtain ⟨n, hn, rfl, hnw⟩ := hmem hj hw
  rw [← Bool.not_eq_true]
  exact fun hsame => hkl (hkeys m hm n hn v w hmv hnw hsame)

end ItemChange

/-! ### Records -/

namespace ChangeRecord

/-- What can be relied on in a record, where some collections are known to have members with an
identity: every change describes its values, every collection is told of once and has changes, no
two of which are equal or share an identity. -/
structure WellFormed (identified : List (String × String)) (r : ChangeRecord) : Prop where
  fields : ∀ c ∈ r.fields, c.kind.Describes c.old c.new
  items : ∀ i ∈ r.items, i.kind.Describes i.old i.new
  names : (r.collections.map (·.name)).Nodup
  nonempty : ∀ c ∈ r.collections, c.items ≠ []
  distinct : ∀ c ∈ r.collections, c.items.Pairwise fun i j => ¬i.same j
  identities : ∀ c ∈ r.collections, ∀ identity, (c.name, identity) ∈ identified →
    c.items.Pairwise (ItemChange.SharesNo identity)

/-- Of changes that all say something each is of one of three kinds. -/
theorem length_eq_countP {α : Type} (kind : α → ChangeKind) {l : List α}
    (h : ∀ a ∈ l, (kind a).isChange) : l.length = l.countP (kind · = .added)
      + l.countP (kind · = .removed) + l.countP (kind · = .modified) := by
  induction l with
  | nil => rfl
  | cons a l ih =>
    obtain ⟨ha, hl⟩ := List.forall_mem_cons.mp h
    rw [List.length_cons, ih hl, List.countP_cons, List.countP_cons, List.countP_cons]
    cases hkind : kind a with
    | nothing => simp [hkind, ChangeKind.isChange] at ha
    | added | removed | modified => simp; omega

variable {identified : List (String × String)} {r : ChangeRecord}

/-- The changes are counted by their kinds. -/
theorem WellFormed.size_eq_counts (h : r.WellFormed identified) :
    r.size = r.count .added + r.count .removed + r.count .modified := by
  have hfields := length_eq_countP FieldChange.kind fun c hc => (h.fields c hc).isChange
  have hitems := length_eq_countP ItemChange.kind fun i hi => (h.items i hi).isChange
  rw [size, hfields, hitems, count, count, count]
  omega

/-- From the changes of a record that has some the record is made again. -/
theorem WellFormed.of?_self (h : r.WellFormed identified) (hsize : 0 < r.size) :
    of? r.fields r.collections = some r := by
  rw [of?_eq (fun c hc => (h.fields c hc).isChange) fun c hc => ⟨h.nonempty c hc, fun i hi =>
    (h.items i (List.mem_flatMap.mpr ⟨c, hc, hi⟩)).isChange⟩, if_neg]
  intro hempty
  rw [Bool.and_eq_true, List.isEmpty_iff, List.isEmpty_iff] at hempty
  rw [size, ChangeRecord.items, hempty.1, hempty.2] at hsize
  exact absurd hsize (by decide)

end ChangeRecord

end SnapshotDiff
