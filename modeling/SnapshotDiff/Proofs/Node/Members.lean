import SnapshotDiff.Proofs.Finding.Sides
import SnapshotDiff.Proofs.Node.Fits

/-!
# The members of collections

What the comparison takes from the nodes of a field: the object that counts as present, the members
of a collection, and the keys or identities under which it looks them up.

## Main results

* `Node.Fits.of_mem_members_leaves`, `Node.Fits.of_mem_members_objects` — members fit the
  declaration of members.
* `Node.isSome_lookup_byKey_iff`, `Node.isSome_lookup_byIdentity_iff` — what is looked up is found
  if a member has it.
* `Node.delimited_of_mem_byKey`, `Node.delimited_of_mem_byIdentity` — their keys are delimited.
-/

namespace SnapshotDiff

open Finding (members byKey byIdentity identityKey presentObject?)

namespace Node

variable {P : Json → Prop} {typeName identity : String} {fields : List (String × FieldShape)}
  {s : FieldShape} {n : Option Node}

/-- The members of a collection that fits its declaration fit the declaration of members. -/
theorem Fits.of_mem_members_leaves {kind : Leaf} (h : ∀ m ∈ n, Fits P (.leaves kind) m) :
    ∀ m ∈ members n, Fits P (.leaf kind) m := by
  intro m hm
  unfold members at hm
  cases n with
  | none => simp at hm
  | some n =>
    cases h n rfl with
    | leaves hms => exact hms m hm

theorem Fits.of_mem_members_objects {identity : Option String}
    (h : ∀ m ∈ n, Fits P (.objects typeName fields identity) m) :
    ∀ m ∈ members n, Fits P (.object typeName fields) m := by
  intro m hm
  unfold members at hm
  cases n with
  | none => simp at hm
  | some n =>
    cases h n rfl with
    | objects hms => exact hms m hm

/-- What a free object holds is canonical if what it was read from is. -/
theorem Fits.canonical_free (h : ∀ m ∈ n, Fits Json.Canonical .free m) :
    (Json.obj ((n.bind Node.free?).getD [])).Canonical := by
  cases n with
  | none => exact Json.canonical_obj_iff.mpr ⟨List.Pairwise.nil, by simp⟩
  | some n =>
    cases h n rfl with
    | free contents => exact contents

/-- What has a key among the members is one of them. -/
theorem exists_of_mem_byKey {ns : List Node} {e : String × Node} (he : e ∈ byKey ns) :
    e.2 ∈ ns ∧ e.1 = e.2.key := by
  obtain ⟨m, hm, rfl⟩ := List.mem_map.mp (Finding.mem_of_mem_firstByKey he).1
  exact ⟨hm, rfl⟩

/-- The members of a legible collection are legible. -/
theorem legible_of_mem_members (h : ∀ m ∈ n, m.Legible) : ∀ m ∈ members n, m.Legible := by
  intro m hm
  unfold members at hm
  cases n with
  | none => simp at hm
  | some n =>
    cases h n rfl with
    | collection _ members => exact members m hm
    | leaf | object | free => simp [collection?] at hm

/-- The keys that members are compared by are delimited. -/
theorem delimited_of_mem_byKey {ns : List Node} (h : ∀ m ∈ ns, m.Legible) :
    ∀ e ∈ byKey ns, Text.Delimited e.1.toList := by
  intro e he
  obtain ⟨hmem, hkey⟩ := exists_of_mem_byKey he
  exact hkey ▸ (h _ hmem).delimited_key

/-- What has an identity among the members is one of them. -/
theorem exists_of_mem_byIdentity {ns : List Node} {e : String × Table Node}
    (he : e ∈ byIdentity identity ns) : .object e.2 ∈ ns ∧ e.1 = identityKey identity e.2 := by
  obtain ⟨fs, hfs, rfl⟩ := List.mem_map.mp (Finding.mem_of_mem_firstByKey he).1
  obtain ⟨m, hm, hobject⟩ := List.mem_filterMap.mp hfs
  cases m <;> simp only [object?, reduceCtorEq, Option.some.injEq] at hobject
  exact ⟨hobject ▸ hm, rfl⟩

/-- A key is found in a collection if a member has it. -/
theorem isSome_lookup_byKey_iff {ns : List Node} {k : String} :
    ((byKey ns).lookup k).isSome ↔ k ∈ ns.map key := by
  rw [byKey, Finding.lookup_firstByKey, if_neg List.not_mem_nil, List.lookup_isSome_iff_mem,
    List.map_map]
  rfl

/-- An identity is found in a collection if a member has it. -/
theorem isSome_lookup_byIdentity_iff {ns : List Node} {k : String} :
    ((byIdentity identity ns).lookup k).isSome
      ↔ ∃ fs, .object fs ∈ ns ∧ identityKey identity fs = k := by
  rw [byIdentity, Finding.lookup_firstByKey, if_neg List.not_mem_nil, List.lookup_isSome_iff_mem,
    List.map_map]
  constructor
  · intro h
    obtain ⟨fs, hfs, rfl⟩ := List.mem_map.mp h
    obtain ⟨n, hn, hobject⟩ := List.mem_filterMap.mp hfs
    cases n <;> simp only [object?, reduceCtorEq, Option.some.injEq] at hobject
    exact ⟨fs, hobject ▸ hn, rfl⟩
  · rintro ⟨fs, hn, rfl⟩
    exact List.mem_map.mpr ⟨fs, List.mem_filterMap.mpr ⟨_, hn, rfl⟩, rfl⟩

theorem delimited_of_mem_byIdentity {ns : List Node} (h : ∀ m ∈ ns, m.Legible) :
    ∀ e ∈ byIdentity identity ns, Text.Delimited e.1.toList := by
  intro e he
  obtain ⟨hmem, hkey⟩ := exists_of_mem_byIdentity he
  have hlegible := h _ hmem
  -- an identity has a sign in front that tells what it was made from
  have hsign : ∀ {sign k : String}, (∀ c ∈ sign.toList, Text.isPlain c) →
      Text.Delimited k.toList → Text.Delimited (sign ++ k).toList := by
    intro sign k hsign hk
    rw [String.toList_append]
    exact (Text.delimited_of_isPlain hsign).append hk
  rw [hkey, identityKey]
  split
  · next n hn =>
    exact hsign (List.all_eq_true.mp (by decide)) (hlegible.field hn).delimited_key
  · exact hsign (List.all_eq_true.mp (by decide)) hlegible.delimited_key

/-- An object is present unless it is empty and not a default object. -/
theorem presentObject?_object (rules : Rules) (path : String) (fs : Table Node) :
    presentObject? rules path (some (.object fs))
      = if rules.defaultObjects.contains path || !fs.isEmpty then some fs else none := by
  show Option.filter _ (some fs) = _
  rw [Option.filter_some]

theorem eq_object_of_presentObject? {rules : Rules} {path : String} {fs : Table Node}
    (h : presentObject? rules path n = some fs) : n = some (.object fs) := by
  rw [presentObject?, Option.filter_eq_some_iff] at h
  obtain ⟨m, rfl, hobject⟩ := Option.bind_eq_some_iff.mp h.1
  cases m <;> simp only [object?, reduceCtorEq, Option.some.injEq] at hobject
  rw [hobject]

end Node

end SnapshotDiff
