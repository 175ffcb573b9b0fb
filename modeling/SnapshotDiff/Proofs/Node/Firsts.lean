import SnapshotDiff.Proofs.Finding.Sides

/-!
# The distinct members of a collection

A comparison looks members up under texts, and of members with one text the first one counts.  Here
the members are told apart by what the texts are made of, and the first ones are taken out of the
list itself.

## Main definitions

* `Node.tag` — what tells a member from the others.
* `Node.firsts` — the distinct members, each in its first occurrence.

## Main results

* `Node.byKey_eq_map_firsts`, `Node.byIdentity_eq_map_firsts` — the members that a comparison looks
  up are the distinct ones.
-/

namespace List

variable {α β : Type}

/-- Induction along what is left of a list once repetitions of its head are left out. -/
@[elab_as_elim]
theorem eraseInduction {P : List α → Prop} (r : α → α → Bool) (nil : P [])
    (cons : ∀ a l, P (l.filter fun b => r b a = false) → P (a :: l)) (l : List α) : P l := by
  generalize hn : l.length = n
  induction n using Nat.strongRecOn generalizing l with
  | ind n ih =>
    cases l with
    | nil => exact nil
    | cons a l =>
      refine cons a l (ih _ ?_ _ rfl)
      rw [← hn, length_cons]
      exact Nat.lt_succ_of_le (length_filter_le _ l)

/-- Elements that are told apart by a relation after a map are told apart so before it. -/
theorem eraseDupsBy_map (f : α → β) (r : β → β → Bool) (l : List α) :
    (l.map f).eraseDupsBy r = (l.eraseDupsBy fun a b => r (f a) (f b)).map f := by
  induction l using eraseInduction (fun a b => r (f a) (f b)) with
  | nil => rfl
  | cons a l ih =>
    rw [map_cons, eraseDupsBy_cons, eraseDupsBy_cons, map_cons, filter_map]
    exact congrArg (f a :: ·) ih

theorem eraseDupsBy_subset (r : α → α → Bool) (l : List α) : l.eraseDupsBy r ⊆ l := by
  induction l using eraseInduction r with
  | nil => exact Subset.refl _
  | cons a l ih =>
    rw [eraseDupsBy_cons]
    exact cons_subset_cons a fun b hb => (mem_filter.mp (ih hb)).1

end List

namespace SnapshotDiff

namespace Finding

variable {α : Type}

/-- The members that are left under their keys are the first ones that are not seen already. -/
theorem firstByKey_map_eq (key : α → String) (l : List α) : ∀ seen,
    firstByKey seen (l.map fun a => (key a, a))
      = ((l.filter fun a => !seen.contains (key a)).eraseDupsBy fun a b => key a == key b).map
        fun a => (key a, a) := by
  induction l with
  | nil => exact fun _ => rfl
  | cons a l ih =>
    intro seen
    rw [List.map_cons, firstByKey, List.filter_cons]
    by_cases hseen : seen.contains (key a)
    · rw [if_pos hseen, if_neg (by rw [hseen]; decide), ih]
    · rw [if_neg hseen, if_pos (by rw [Bool.not_eq_true] at hseen; rw [hseen]; rfl), ih,
        List.eraseDupsBy_cons, List.map_cons, List.filter_filter]
      congr 3
      refine List.filter_congr fun b _ => ?_
      rw [List.contains_cons, Bool.not_or]
      cases key b == key a <;> rfl

end Finding

namespace Node

open Finding (byKey byIdentity identityKey)

/-- What tells a member of a collection from the others. -/
inductive Tag
  /-- The key of the field that identifies the member. -/
  | identity (key : String)
  /-- The key of the member as a whole. -/
  | whole (key : String)
  deriving DecidableEq

/-- The tag of a member: its identity, or the member as a whole where the collection declares no
identity or the member lacks the field. -/
def tag (identity : Option String) (n : Node) : Tag :=
  match identity.bind fun name => n.object?.bind (Table.get? · name) with
  | some m => .identity m.key
  | none => .whole n.key

/-- The distinct members of a collection: of members with one tag the first. -/
def firsts (identity : Option String) (ns : List Node) : List Node :=
  ns.eraseDupsBy fun n m => n.tag identity == m.tag identity

@[simp] theorem isEmpty_firsts (identity : Option String) (ns : List Node) :
    (firsts identity ns).isEmpty = ns.isEmpty := by
  cases ns with
  | nil => rfl
  | cons n ns => rw [firsts, List.eraseDupsBy_cons]; rfl

theorem byKey_eq_map_firsts (ns : List Node) :
    byKey ns = (firsts none ns).map fun n => (n.key, n) := by
  have htag : ∀ n m : Node, (n.tag none == m.tag none) = (n.key == m.key) := by
    intro n m
    rw [Bool.eq_iff_iff, beq_iff_eq, beq_iff_eq]
    exact Tag.whole.injEq _ _ ▸ Iff.rfl
  rw [byKey, Finding.firstByKey_map_eq]
  simp only [firsts, htag, List.contains_nil, Bool.not_false, List.filter_true]

/-- Identities are texts made of the tags, which they tell apart. -/
theorem identityKey_beq (identity : String) (fs gs : Table Node) :
    (identityKey identity fs == identityKey identity gs)
      = ((object fs).tag (some identity) == (object gs).tag (some identity)) := by
  have hsign : ∀ x y : String, "#" ++ x ≠ "~" ++ y := by
    intro x y h
    have hlist := congrArg String.toList h
    simp at hlist
  rw [Bool.eq_iff_iff, beq_iff_eq, beq_iff_eq, identityKey, identityKey, tag, tag, Option.bind_some,
    Option.bind_some, object?_object, object?_object, Option.bind_some, Option.bind_some]
  cases fs.get? identity with
  | none =>
    cases gs.get? identity with
    | none => simp [String.append_right_inj]
    | some m => simpa using (hsign _ _).symm
  | some n =>
    cases gs.get? identity with
    | none => simpa using hsign _ _
    | some m => simp [String.append_right_inj]

theorem mem_of_mem_firsts {identity : Option String} {n : Node} {ns : List Node}
    (hn : n ∈ firsts identity ns) : n ∈ ns := List.eraseDupsBy_subset _ ns hn

theorem map_object_filterMap {ns : List Node} (hns : ∀ n ∈ ns, ∃ fs, n = object fs) :
    (ns.filterMap object?).map object = ns := by
  induction ns with
  | nil => rfl
  | cons n ns ih =>
    obtain ⟨⟨fs, rfl⟩, htail⟩ := List.forall_mem_cons.mp hns
    rw [List.filterMap_cons_some (object?_object fs), List.map_cons, ih htail]

theorem filterMap_object?_map (fss : List (Table Node)) :
    (fss.map object).filterMap object? = fss := by
  rw [List.filterMap_map]
  exact List.filterMap_some

/-- The objects that a comparison looks up under their identities are the distinct ones. -/
theorem byIdentity_eq_map_firsts (identity : String) {ns : List Node}
    (hns : ∀ n ∈ ns, ∃ fs, n = object fs) :
    byIdentity identity ns = ((firsts (some identity) ns).filterMap object?).map
      fun fs => (identityKey identity fs, fs) := by
  rw [← map_object_filterMap hns]
  generalize ns.filterMap object? = fss
  rw [byIdentity, filterMap_object?_map, Finding.firstByKey_map_eq, firsts, List.eraseDupsBy_map,
    filterMap_object?_map]
  simp only [identityKey_beq, List.contains_nil, Bool.not_false, List.filter_true]

end Node

end SnapshotDiff
