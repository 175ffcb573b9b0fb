import SnapshotDiff.Proofs.Change.Alike
import SnapshotDiff.Proofs.OnePass

/-!
# Changes of the members of a collection

The members of both sides are compared under their keys, and each key has one change at most.

## Main results

* `ItemChange.pairwise_sides` — the changes are different ones if the values tell the keys apart.
* `ItemChange.kinds_perm_sides` — members that do not differ can stand for each other.
* `ItemChange.filter_sides` — the changes that are left of a comparison if fewer members differ.
-/

namespace SnapshotDiff

open Finding (sides)

namespace ItemChange

variable {α : Type} {json : α → Json} {differ : α → α → Bool} {key : String}

/-- The values of a change are those of the member. -/
theorem values_of_mem_ofSides {a b : Option α} {i : ItemChange}
    (hi : i ∈ ofSides json differ key a b) : i.old = a.map json ∧ i.new = b.map json := by
  match a, b with
  | none, none => exact absurd hi List.not_mem_nil
  | some a, none =>
    rw [List.mem_singleton.mp hi]
    exact ⟨rfl, rfl⟩
  | none, some b =>
    rw [List.mem_singleton.mp hi]
    exact ⟨rfl, rfl⟩
  | some a, some b =>
    rw [ofSides] at hi
    split at hi
    · rw [List.mem_singleton.mp hi]
      exact ⟨rfl, rfl⟩
    · exact absurd hi List.not_mem_nil

/-- What the other side has nothing to match is told. -/
theorem removed_mem_sides {olds news : List (String × α)} {a : α} (ha : (key, a) ∈ olds)
    (hnone : news.lookup key = none) :
    removed (json a) ∈ sides (ofSides json differ) olds news := by
  refine List.mem_append_left _ (List.mem_flatMap.mpr ⟨_, ha, ?_⟩)
  rw [hnone]
  exact List.mem_singleton_self _

theorem added_mem_sides {olds news : List (String × α)} {b : α} (hb : (key, b) ∈ news)
    (hnone : olds.lookup key = none) :
    added (json b) ∈ sides (ofSides json differ) olds news := by
  refine List.mem_append_right _ (List.mem_flatMap.mpr ⟨_, List.mem_filter.mpr ⟨hb, ?_⟩, ?_⟩)
  · rw [hnone]
    rfl
  · exact List.mem_singleton_self _

/-- Under one key there is one change at most. -/
theorem pairwise_ofSides (R : ItemChange → ItemChange → Prop) (a b : Option α) :
    (ofSides json differ key a b).Pairwise R := by
  match a, b with
  | none, none => exact List.Pairwise.nil
  | some a, none | none, some b => exact List.pairwise_singleton _ _
  | some a, some b =>
    rw [ofSides]
    split
    · exact List.pairwise_singleton _ _
    · exact List.Pairwise.nil

/-- The changes of the members of a collection differ, if members with different keys do. -/
theorem pairwise_sides {olds news : List (String × α)} (hold : (olds.map Prod.fst).Nodup)
    (hnew : (news.map Prod.fst).Nodup)
    (holds : ∀ m ∈ olds, ∀ n ∈ olds, Json.same (json m.2) (json n.2) → m.1 = n.1)
    (hnews : ∀ m ∈ news, ∀ n ∈ news, Json.same (json m.2) (json n.2) → m.1 = n.1) :
    (sides (ofSides json differ) olds news).Pairwise fun i j => ¬i.same j := by
  -- values that are equal belong to one key, on either side
  have hkeys : ∀ {ms : List (String × α)},
      (∀ m ∈ ms, ∀ n ∈ ms, Json.same (json m.2) (json n.2) → m.1 = n.1) → ∀ {k l : String} {a : α},
        ms.lookup k = some a → Json.same? ((ms.lookup k).map json) ((ms.lookup l).map json) →
          k = l := by
    intro ms hms k l a hk hsame
    rw [hk] at hsame
    cases hl : ms.lookup l with
    | none => simp [hl] at hsame
    | some b =>
      rw [hl] at hsame
      exact hms _ (List.mem_of_lookup_eq_some hk) _ (List.mem_of_lookup_eq_some hl) hsame
  rw [Finding.sides_eq_flatMap hold hnew, List.pairwise_flatMap]
  refine ⟨fun k _ => pairwise_ofSides _ _ _, ?_⟩
  refine (List.nodup_iff_pairwise_ne.mp (Finding.nodup_sideKeys hold hnew)).imp fun {k l} hkl => ?_
  intro i hi j hj hsame
  obtain ⟨hiold, hinew⟩ := values_of_mem_ofSides hi
  obtain ⟨hjold, hjnew⟩ := values_of_mem_ofSides hj
  obtain ⟨-, hsold, hsnew⟩ := same_iff.mp hsame
  rw [hiold, hjold] at hsold
  rw [hinew, hjnew] at hsnew
  -- a member of one of the sides tells the keys apart
  cases hk : olds.lookup k with
  | some a => exact hkl (hkeys holds hk hsold)
  | none =>
    cases hk' : news.lookup k with
    | some b => exact hkl (hkeys hnews hk' hsnew)
    | none =>
      rw [hk, hk'] at hi
      exact List.not_mem_nil hi

/-- The kinds of changes are the same for members that do not differ. -/
theorem kinds_perm_sides {as bs cs : List (String × α)} (ha : (as.map Prod.fst).Nodup)
    (hb : (bs.map Prod.fst).Nodup) (hc : (cs.map Prod.fst).Nodup)
    (h : sides (ofSides json differ) as bs = [])
    (hdiffer : ∀ k a b c, (k, a) ∈ as → (k, b) ∈ bs → (k, c) ∈ cs → differ a b = false →
      differ a c = differ b c) :
    ((sides (ofSides json differ) as cs).map (·.kind)).Perm
      ((sides (ofSides json differ) bs cs).map (·.kind)) := by
  -- no change between the first two sides means: the same keys, and under each no difference
  have hkeys := (Finding.sides_eq_nil_iff (fun _ => rfl) ha hb).mp h
  rw [Finding.map_sides, Finding.map_sides]
  refine Finding.sides_perm_sides (fun _ => rfl) ha hb hc fun k => .of_eq ?_
  have hk := hkeys k
  cases hak : as.lookup k with
  | none =>
    cases hbk : bs.lookup k with
    | none => rfl
    | some b => simp [hak, hbk, ofSides] at hk
  | some a =>
    cases hbk : bs.lookup k with
    | none => simp [hak, hbk, ofSides] at hk
    | some b =>
      cases hck : cs.lookup k with
      | none => rfl
      | some c =>
        have hab : differ a b = false := by simpa [hak, hbk, ofSides] using hk
        rw [ofSides, ofSides, hdiffer k a b c (List.mem_of_lookup_eq_some hak)
          (List.mem_of_lookup_eq_some hbk) (List.mem_of_lookup_eq_some hck) hab]
        split <;> rfl

theorem sides_self {ms : List (String × α)} (hms : (ms.map Prod.fst).Nodup)
    (hdiffer : ∀ m ∈ ms, differ m.2 m.2 = false) : sides (ofSides json differ) ms ms = [] := by
  rw [Finding.sides_eq_nil_iff (fun _ => rfl) hms hms]
  intro k
  cases hk : ms.lookup k with
  | none => rfl
  | some a => rw [ofSides, hdiffer _ (List.mem_of_lookup_eq_some hk)]; rfl

/-- A member on one side only is not said to be modified. -/
theorem filter_sides {differ' : α → α → Bool} {keep : ItemChange → Bool}
    {olds news : List (String × α)} (hsided : ∀ i, i.kind ≠ .modified → keep i)
    (hboth : ∀ k a b, (k, a) ∈ olds → (k, b) ∈ news →
      (differ a b && keep (modified (json a) (json b))) = differ' a b) :
    (sides (ofSides json differ) olds news).filter keep
      = sides (ofSides json differ') olds news := by
  have hone : ∀ i : ItemChange, i.kind ≠ .modified → [i].filter keep = [i] :=
    fun i hi => List.filter_eq_self.mpr fun j hj => List.mem_singleton.mp hj ▸ hsided i hi
  rw [Finding.filter_sides]
  refine Finding.sides_congr fun k a b ha hb => ?_
  match a, b with
  | none, none => rfl
  | some a, none => exact hone (removed (json a)) (by simp [removed])
  | none, some b => exact hone (added (json b)) (by simp [added])
  | some a, some b =>
    rw [ofSides, ofSides, ← hboth k a b (ha a rfl) (hb b rfl)]
    cases differ a b <;> cases hkeep : keep (modified (json a) (json b)) <;> simp [hkeep]

end ItemChange

end SnapshotDiff
