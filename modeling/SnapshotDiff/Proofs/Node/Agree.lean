import Mathlib.Data.List.ProdSigma
import SnapshotDiff.Finding
import SnapshotDiff.Proofs.Json.Canonical
import SnapshotDiff.Proofs.Shape.Names

/-!
# Nodes that agree

Collections are sets: two nodes agree if they hold the same, but for the order and the repetition
of members.  Members with an identity agree if those of one identity do.

## Main definitions

* `Node.Agree` — the relation, along a declaration.
* `Node.Distinct` — no two members of a collection with an identity have the same one.

## Main results

* `Node.Agree.key_eq` — nodes that agree have the same key.
* `Node.Agree.symm` — which of two nodes comes first does not matter.
-/

namespace List

/-- If every member of two lists is related to one of the other list, the members are paired. -/
theorem exists_pairs {α β : Type} {R : α → β → Prop} {l : List α} {l' : List β}
    (left : ∀ a ∈ l, ∃ b ∈ l', R a b) (right : ∀ b ∈ l', ∃ a ∈ l, R a b) :
    ∃ pairs : List (α × β), (∀ a, a ∈ l ↔ a ∈ pairs.map Prod.fst)
      ∧ (∀ b, b ∈ l' ↔ b ∈ pairs.map Prod.snd) ∧ ∀ p ∈ pairs, R p.1 p.2 := by
  classical
  have hmem : ∀ p, p ∈ (l ×ˢ l').filter (fun p => R p.1 p.2)
      ↔ (p.1 ∈ l ∧ p.2 ∈ l') ∧ R p.1 p.2 := by
    intro p
    rw [mem_filter, mem_product, decide_eq_true_iff]
  refine ⟨(l ×ˢ l').filter fun p => R p.1 p.2, fun a => ?_, fun b => ?_,
    fun p hp => ((hmem p).mp hp).2⟩
  · rw [mem_map]
    constructor
    · intro ha
      obtain ⟨b, hb, h⟩ := left a ha
      exact ⟨(a, b), (hmem _).mpr ⟨⟨ha, hb⟩, h⟩, rfl⟩
    · rintro ⟨p, hp, rfl⟩
      exact ((hmem p).mp hp).1.1
  · rw [mem_map]
    constructor
    · intro hb
      obtain ⟨a, ha, h⟩ := right b hb
      exact ⟨(a, b), (hmem _).mpr ⟨⟨ha, hb⟩, h⟩, rfl⟩
    · rintro ⟨p, hp, rfl⟩
      exact ((hmem p).mp hp).1.2

end List

namespace SnapshotDiff

open Finding (identityKey)

namespace Text

theorem pairwise_insertAscending {s : String} {ts : List String} (h : ts.Pairwise (· < ·)) :
    (insertAscending s ts).Pairwise (· < ·) := by
  induction ts with
  | nil => exact List.pairwise_singleton _ _
  | cons t ts ih =>
    obtain ⟨ht, hts⟩ := List.pairwise_cons.mp h
    rw [insertAscending]
    split
    · next hst =>
      exact List.pairwise_cons.mpr
        ⟨List.forall_mem_cons.mpr ⟨hst, fun x hx => String.lt_trans hst (ht x hx)⟩, h⟩
    · split
      · exact h
      · next hnlt hne =>
        have hlt : t < s :=
          String.not_le.mp fun hle => hne (String.le_antisymm hle (String.not_lt.mp hnlt))
        refine List.pairwise_cons.mpr ⟨fun x hx => ?_, ih hts⟩
        rcases mem_insertAscending.mp hx with rfl | hx
        · exact hlt
        · exact ht x hx

theorem pairwise_ascending (ss : List String) : (ascending ss).Pairwise (· < ·) := by
  induction ss with
  | nil => exact List.Pairwise.nil
  | cons s ss ih => exact pairwise_insertAscending ih

/-- The sorted texts depend on which texts there are, not on their order or repetition. -/
theorem ascending_congr {ss ts : List String} (h : ∀ x, x ∈ ss ↔ x ∈ ts) :
    ascending ss = ascending ts :=
  Table.eq_of_ascending (pairwise_ascending ss) (pairwise_ascending ts) fun x => by
    rw [mem_ascending, mem_ascending, h]

end Text

namespace Node

/-- In every collection with an identity, no two members have the same one. -/
inductive Distinct : FieldShape → Node → Prop
  | leaf {kind : Leaf} {n : Node} : Distinct (.leaf kind) n
  | object {typeName : String} {fields : List (String × FieldShape)} {fs : Table Node}
    (fits : ∀ name s n, (name, s) ∈ fields → fs.get? name = some n → Distinct s n) :
    Distinct (.object typeName fields) (.object fs)
  | collection {s element : FieldShape} {ns : List Node} (declared : s.element? = some element)
    (members : ∀ n ∈ ns, Distinct element n)
    (identities : ∀ identity ∈ s.identity?,
      ((ns.filterMap object?).map (identityKey identity)).Nodup) : Distinct s (.collection ns)
  | free {n : Node} : Distinct .free n

/-- The nodes hold the same, but for the order and the repetition of members.  The members of two
collections that agree are paired, and those of one identity agree. -/
inductive Agree : FieldShape → Node → Node → Prop
  | leaf {kind : Leaf} {v w : Json} {k : String} : Agree (.leaf kind) (.leaf v k) (.leaf w k)
  | object {typeName : String} {fields : List (String × FieldShape)} {fs gs : Table Node}
    (ascending : fs.Ascending) (keys : fs.keys = gs.keys)
    (declared : ∀ name ∈ fs.keys, name ∈ fields.map Prod.fst)
    (fits : ∀ name s n m, (name, s) ∈ fields → fs.get? name = some n → gs.get? name = some m →
      Agree s n m) : Agree (.object typeName fields) (.object fs) (.object gs)
  | collection {s element : FieldShape} {ns ms : List Node} (pairs : List (Node × Node))
    (declared : s.element? = some element) (left : ∀ n, n ∈ ns ↔ n ∈ pairs.map Prod.fst)
    (right : ∀ m, m ∈ ms ↔ m ∈ pairs.map Prod.snd) (agree : ∀ p ∈ pairs, Agree element p.1 p.2)
    (identities : ∀ identity ∈ s.identity?, ∀ fs gs, object fs ∈ ns → object gs ∈ ms →
      identityKey identity fs = identityKey identity gs → Agree element (object fs) (object gs)) :
    Agree s (.collection ns) (.collection ms)
  | free {ms : Table Json} (canonical : (Json.obj ms).Canonical) : Agree .free (.free ms) (.free ms)

namespace Agree

variable {s element : FieldShape} {n m : Node} {ns ms : List Node}

/-- Collections agree if each member of one side agrees with one of the other side. -/
theorem of_members (declared : s.element? = some element)
    (left : ∀ n ∈ ns, ∃ m ∈ ms, Agree element n m) (right : ∀ m ∈ ms, ∃ n ∈ ns, Agree element n m)
    (identities : ∀ identity ∈ s.identity?, ∀ fs gs, .object fs ∈ ns → .object gs ∈ ms →
      identityKey identity fs = identityKey identity gs → Agree element (.object fs) (.object gs)) :
    Agree s (.collection ns) (.collection ms) := by
  obtain ⟨pairs, hleft, hright, hpairs⟩ := List.exists_pairs left right
  exact .collection pairs declared hleft hright hpairs identities

/-- Which of two nodes comes first does not matter. -/
theorem symm (h : Agree s n m) : Agree s m n := by
  induction h with
  | leaf => exact .leaf
  | object ascending keys declared _ ih =>
    exact .object (ascending.of_keys_eq keys) keys.symm (keys ▸ declared)
      fun name s m n hs hm hn => ih name s n m hs hn hm
  | collection pairs declared left right _ _ ih ihidentity =>
    refine .collection (pairs.map Prod.swap) declared (fun m => ?_) (fun n => ?_) (fun p hp => ?_)
      fun identity hidentity gs fs hgs hfs hkey =>
        ihidentity identity hidentity fs gs hfs hgs hkey.symm
    · rw [right, List.map_map]
      rfl
    · rw [left, List.map_map]
      rfl
    · obtain ⟨q, hq, rfl⟩ := List.mem_map.mp hp
      exact ih q hq
  | free canonical => exact .free canonical

/-- What is so of both members of each pair, if it is of one, is so on both sides. -/
theorem exists_iff_of_pairs {pairs : List (Node × Node)} {P : Node → Prop}
    (left : ∀ n, n ∈ ns ↔ n ∈ pairs.map Prod.fst) (right : ∀ m, m ∈ ms ↔ m ∈ pairs.map Prod.snd)
    (h : ∀ p ∈ pairs, P p.1 ↔ P p.2) : (∃ n ∈ ns, P n) ↔ ∃ m ∈ ms, P m := by
  constructor
  · rintro ⟨n, hn, hP⟩
    obtain ⟨p, hp, rfl⟩ := List.mem_map.mp ((left n).mp hn)
    exact ⟨p.2, (right _).mpr (List.mem_map_of_mem hp), (h p hp).mp hP⟩
  · rintro ⟨m, hm, hP⟩
    obtain ⟨p, hp, rfl⟩ := List.mem_map.mp ((right m).mp hm)
    exact ⟨p.1, (left _).mpr (List.mem_map_of_mem hp), (h p hp).mpr hP⟩

/-- **Nodes that agree have the same key.** -/
theorem key_eq (h : Agree s n m) : n.key = m.key := by
  induction h with
  | leaf => rfl
  | @object _ _ fs gs ascending keys declared _ ih =>
    have hgs : gs.Ascending := ascending.of_keys_eq keys
    have hfields : fieldKeys fs = fieldKeys gs := by
      rw [fieldKeys_eq_map, fieldKeys_eq_map]
      refine Table.map_eq_map_of_keys_eq (f := fun name n => name ++ ":" ++ Node.key n)
        (g := fun name n => name ++ ":" ++ Node.key n) keys fun name n m hn hm => ?_
      obtain ⟨⟨_, s⟩, hs, rfl⟩ := List.mem_map.mp (declared name (List.mem_map_of_mem hn))
      rw [ih _ s n m hs ((Table.get?_eq_some_iff ascending).mpr hn)
        ((Table.get?_eq_some_iff hgs).mpr hm)]
    rw [key, key, hfields]
  | @collection _ _ ns ms pairs _ left right _ _ ih _ =>
    have hkeys : ∀ k, k ∈ memberKeys ns ↔ k ∈ memberKeys ms := by
      intro k
      rw [memberKeys_eq_map, memberKeys_eq_map, List.mem_map, List.mem_map]
      exact exists_iff_of_pairs left right fun p hp => by rw [ih p hp]
    rw [key, key, Text.ascending_congr hkeys]
  | free => rfl

/-- Nodes that agree as objects are objects. -/
theorem exists_objects {typeName : String} {fields : List (String × FieldShape)}
    (h : Agree (.object typeName fields) n m) :
    ∃ fs gs : Table Node, n = .object fs ∧ m = .object gs ∧ fs.keys = gs.keys := by
  cases h with
  | object _ keys => exact ⟨_, _, rfl, rfl, keys⟩
  | collection _ declared => simp [FieldShape.element?] at declared

/-- **Objects that agree have the same identity.** -/
theorem identityKey_eq {typeName : String} {fields : List (String × FieldShape)}
    {fs gs : Table Node} (h : Agree (.object typeName fields) (.object fs) (.object gs))
    (identity : String) : identityKey identity fs = identityKey identity gs := by
  have hkey := h.key_eq
  cases h with
  | object _ keys declared fits =>
    have hsome := Table.isSome_eq_of_keys_eq keys identity
    rw [identityKey, identityKey]
    cases hn : fs.get? identity with
    | none =>
      cases hm : gs.get? identity with
      | none => rw [hkey]
      | some m => simp [hn, hm] at hsome
    | some n =>
      cases hm : gs.get? identity with
      | none => simp [hn, hm] at hsome
      | some m =>
        have hmem := List.mem_map_of_mem (f := Prod.fst) (Table.mem_of_get?_eq_some hn)
        obtain ⟨⟨_, s⟩, hs, rfl⟩ := List.mem_map.mp (declared _ hmem)
        dsimp only
        rw [(fits _ s n m hs hn hm).key_eq]

end Agree

end Node

end SnapshotDiff
