import Mathlib.Data.List.Nodup
import SnapshotDiff.Table

/-!
# Keyed lists

A table whose keys ascend has no key twice, so what stands under a key is the one entry that has it.
The first part holds of any list of entries without repeated keys, ascending or not.

## Main results

* `List.lookup_eq_some_iff_mem` — look-up in a list without repeated keys.
* `Table.get?_eq_some_iff` — look-up in a table is membership.
* `Table.ofList_eq_self` — a list of entries whose keys ascend is its own table.
-/

namespace List

variable {κ : Type u} {α : Type v} [BEq κ] [LawfulBEq κ] {l : List (κ × α)} {key : κ} {a : α}

theorem mem_of_lookup_eq_some (h : l.lookup key = some a) : (key, a) ∈ l := by
  induction l with
  | nil => simp at h
  | cons e l ih =>
    obtain ⟨k, b⟩ := e
    rw [lookup_cons] at h
    split at h
    · next hk =>
      obtain rfl := Option.some.inj h
      rw [eq_of_beq hk]
      exact mem_cons_self
    · exact mem_cons_of_mem _ (ih h)

/-- In a list without repeated keys, what is found under a key is what the list has under it. -/
theorem lookup_eq_some_iff_mem (hl : (l.map Prod.fst).Nodup) :
    l.lookup key = some a ↔ (key, a) ∈ l := by
  refine ⟨mem_of_lookup_eq_some, fun h => ?_⟩
  induction l with
  | nil => simp at h
  | cons e l ih =>
    obtain ⟨k, b⟩ := e
    obtain ⟨hk, hl⟩ := nodup_cons.mp hl
    rw [lookup_cons]
    rcases mem_cons.mp h with hhead | htail
    · obtain ⟨rfl, rfl⟩ := Prod.mk.inj hhead
      simp
    · have hne : key ≠ k := by
        rintro rfl
        exact hk (mem_map.mpr ⟨_, htail, rfl⟩)
      rw [beq_false_of_ne hne]
      exact ih hl htail

/-- In a list without repeated keys there is one entry under a key. -/
theorem eq_of_nodup_keys {b : α} (hl : (l.map Prod.fst).Nodup) (ha : (key, a) ∈ l)
    (hb : (key, b) ∈ l) : a = b := by
  rw [← lookup_eq_some_iff_mem hl] at ha hb
  exact Option.some.inj (ha.symm.trans hb)

theorem lookup_eq_none_iff_notMem : l.lookup key = none ↔ key ∉ l.map Prod.fst := by
  rw [lookup_eq_none_iff, mem_map]
  constructor
  · rintro h ⟨e, he, rfl⟩
    exact absurd rfl (bne_iff_ne.mp (h e he))
  · intro h e he
    exact bne_iff_ne.mpr fun hk => h ⟨e, he, hk.symm⟩

theorem lookup_isSome_iff_mem : (l.lookup key).isSome ↔ key ∈ l.map Prod.fst := by
  rw [← not_iff_not, ← lookup_eq_none_iff_notMem, Bool.not_eq_true, Option.isSome_eq_false_iff,
    Option.isNone_iff_eq_none]

end List

namespace SnapshotDiff

namespace Table

variable {α : Type u} {t : Table α} {key : String} {a : α}

theorem get?_eq_lookup (t : Table α) (key : String) : t.get? key = t.lookup key := by
  induction t with
  | nil => rfl
  | cons e t ih =>
    obtain ⟨k, v⟩ := e
    rw [get?_cons, List.lookup_cons, ih]
    by_cases h : k = key
    · simp [h]
    · simp [h, beq_false_of_ne (Ne.symm h)]

theorem ascending_iff : Ascending t ↔ (t.map Prod.fst).Pairwise (· < ·) := List.pairwise_map.symm

/-- Keys that ascend do not repeat. -/
theorem Ascending.nodup_keys (h : Ascending t) : (t.map Prod.fst).Nodup := by
  rw [List.nodup_iff_pairwise_ne]
  exact List.Pairwise.imp (fun hlt => String.ne_of_lt hlt) (ascending_iff.mp h)

theorem mem_of_get?_eq_some (h : t.get? key = some a) : (key, a) ∈ t := by
  rw [get?_eq_lookup] at h
  exact List.mem_of_lookup_eq_some h

/-- In an ascending table, what is found under a key is what the table has under it. -/
theorem get?_eq_some_iff (h : Ascending t) : t.get? key = some a ↔ (key, a) ∈ t := by
  rw [get?_eq_lookup, List.lookup_eq_some_iff_mem h.nodup_keys]

theorem contains_eq_isSome_lookup (t : Table α) (key : String) :
    t.contains key = (t.lookup key).isSome := by rw [contains, get?_eq_lookup]

/-- Inserting adds one key. -/
theorem mem_insert {e : String × α} (h : e ∈ t.insert key a) : e = (key, a) ∨ e ∈ t := by
  induction t with
  | nil => exact Or.inl (List.mem_singleton.mp h)
  | cons e' t ih =>
    obtain ⟨k, v⟩ := e'
    simp only [insert] at h
    split at h
    · rcases List.mem_cons.mp h with h | h
      · exact Or.inl h
      · exact Or.inr h
    · split at h
      · rcases List.mem_cons.mp h with h | h
        · exact Or.inl h
        · exact Or.inr (List.mem_cons_of_mem _ h)
      · rcases List.mem_cons.mp h with h | h
        · exact Or.inr (h ▸ List.mem_cons_self)
        · rcases ih h with h | h
          · exact Or.inl h
          · exact Or.inr (List.mem_cons_of_mem _ h)

/-! ### Tables with the same keys -/

/-- Ascending texts are determined by which they are. -/
theorem eq_of_ascending {ks ls : List String} (hks : ks.Pairwise (· < ·))
    (hls : ls.Pairwise (· < ·)) (h : ∀ k, k ∈ ks ↔ k ∈ ls) : ks = ls := by
  have hnodup : ∀ {l : List String}, l.Pairwise (· < ·) → l.Nodup := fun hl =>
    List.nodup_iff_pairwise_ne.mpr (hl.imp fun hlt => String.ne_of_lt hlt)
  have hperm := (List.perm_ext_iff_of_nodup (hnodup hks) (hnodup hls)).mpr h
  exact hperm.eq_of_pairwise (fun _ _ _ _ hlt hgt => absurd hgt (String.lt_asymm hlt)) hks hls

theorem get?_isSome_iff_mem : (t.get? key).isSome ↔ key ∈ t.keys := by
  rw [get?_eq_lookup]
  exact List.lookup_isSome_iff_mem

variable {β : Type v} {u : Table β}

/-- Tables that have something under the same keys have the same keys. -/
theorem keys_eq_of_isSome (ht : Ascending t) (hu : Ascending u)
    (h : ∀ key, (t.get? key).isSome = (u.get? key).isSome) : t.keys = u.keys := by
  refine eq_of_ascending (ascending_iff.mp ht) (ascending_iff.mp hu) fun key => ?_
  have hiff : (t.get? key).isSome ↔ (u.get? key).isSome := by rw [h key]
  rwa [get?_isSome_iff_mem, get?_isSome_iff_mem] at hiff

theorem Ascending.of_keys_eq (ht : Ascending t) (h : t.keys = u.keys) : Ascending u := by
  rw [ascending_iff] at ht ⊢
  exact (show t.map Prod.fst = u.map Prod.fst from h) ▸ ht

theorem isSome_eq_of_keys_eq (h : t.keys = u.keys) (key : String) :
    (t.get? key).isSome = (u.get? key).isSome := by
  rw [Bool.eq_iff_iff, get?_isSome_iff_mem, get?_isSome_iff_mem, h]

/-- Putting something under a key into tables with the same keys leaves them with the same keys. -/
theorem keys_insert_congr (h : t.keys = u.keys) (key : String) (a : α) (b : β) :
    (t.insert key a).keys = (u.insert key b).keys := by
  induction t generalizing u with
  | nil =>
    cases u with
    | nil => rfl
    | cons f u => simp [keys] at h
  | cons e t ih =>
    cases u with
    | nil => simp [keys] at h
    | cons f u =>
      obtain ⟨k, x⟩ := e
      obtain ⟨l, y⟩ := f
      obtain ⟨hkey, hrest⟩ : k = l ∧ keys t = keys u := List.cons.inj h
      subst hkey
      simp only [insert]
      split
      · simp [hrest]
      · split
        · simp [hrest]
        · simp [ih hrest]

/-- The table with another value under a key, if there is one under it. -/
def replace (t : Table α) (key : String) (value : α) : Table α :=
  t.map fun e => if e.1 = key then (key, value) else e

@[simp] theorem keys_replace (t : Table α) (key : String) (value : α) :
    (t.replace key value).keys = t.keys := by
  rw [replace, keys, keys, List.map_map]
  refine List.map_congr_left fun e _ => ?_
  dsimp only [Function.comp]
  split
  · next h => exact h.symm
  · rfl

theorem get?_replace (t : Table α) (key other : String) (value : α) :
    (t.replace key value).get? other
      = if key = other then (t.get? other).map fun _ => value else t.get? other := by
  induction t with
  | nil => simp [replace]
  | cons e t ih =>
    obtain ⟨k, v⟩ := e
    rw [replace] at ih ⊢
    rw [List.map_cons]
    by_cases hk : k = key
    · subst hk
      by_cases ho : k = other
      · simp [ho]
      · simp [ho, ih]
    · by_cases ho : k = other
      · subst ho
        simp [hk, Ne.symm hk]
      · simp [hk, ho, ih]

/-- What was replaced is gone once it is dropped. -/
theorem erase_replace (t : Table α) (key : String) (value : α) :
    (t.replace key value).erase key = t.erase key := by
  induction t with
  | nil => rfl
  | cons e t ih =>
    rw [erase, erase, replace] at ih ⊢
    rw [List.map_cons, List.filter_cons, List.filter_cons, ih]
    by_cases h : e.1 = key <;> simp [h]

/-- Tables with the same keys are read alike if what they have under each key is. -/
theorem map_eq_map_of_keys_eq {γ : Type w} {f : String → α → γ} {g : String → β → γ}
    (hkeys : t.keys = u.keys)
    (h : ∀ key a b, (key, a) ∈ t → (key, b) ∈ u → f key a = g key b) :
    (t.map fun e => f e.1 e.2) = u.map fun e => g e.1 e.2 := by
  induction t generalizing u with
  | nil =>
    cases u with
    | nil => rfl
    | cons e u => simp [keys] at hkeys
  | cons e t ih =>
    cases u with
    | nil => simp [keys] at hkeys
    | cons d u =>
      obtain ⟨k, a⟩ := e
      obtain ⟨l, b⟩ := d
      obtain ⟨hkey, hrest⟩ : k = l ∧ keys t = keys u := List.cons.inj hkeys
      subst hkey
      have htail := ih hrest fun key x y hx hy =>
        h key x y (List.mem_cons_of_mem _ hx) (List.mem_cons_of_mem _ hy)
      rw [List.map_cons, List.map_cons, htail,
        h k a b List.mem_cons_self List.mem_cons_self]

/-- Ascending tables that have the same under each key are the same. -/
theorem eq_of_get? {t u : Table α} (ht : Ascending t) (hu : Ascending u)
    (h : ∀ key, t.get? key = u.get? key) : t = u := by
  have hkeys := keys_eq_of_isSome ht hu fun key => by rw [h key]
  have hentries := map_eq_map_of_keys_eq (f := Prod.mk) (g := Prod.mk) hkeys
    fun key a b ha hb => by
      have hboth := ((get?_eq_some_iff ht).mpr ha).symm.trans
        ((h key).trans ((get?_eq_some_iff hu).mpr hb))
      rw [Option.some.inj hboth]
  have hid : ∀ l : Table α, (l.map fun e => (e.1, e.2)) = l := List.map_id
  rwa [hid, hid] at hentries

/-- Putting under a key what is there changes nothing. -/
theorem insert_eq_self (h : Ascending t) (ha : t.get? key = some a) : t.insert key a = t := by
  refine eq_of_get? (ascending_insert h key a) h fun other => ?_
  rw [get?_insert]
  split
  · next heq => exact heq ▸ ha.symm
  · rfl

/-- Dropping a key that is not there changes nothing. -/
theorem erase_eq_self (h : Ascending t) (hnone : t.get? key = none) : t.erase key = t := by
  refine eq_of_get? (ascending_erase h key) h fun other => ?_
  rw [get?_erase]
  split
  · next heq => exact heq ▸ hnone.symm
  · rfl

/-- Putting back what was dropped changes nothing. -/
theorem insert_erase (h : Ascending t) (ha : t.get? key = some a) :
    (t.erase key).insert key a = t := by
  refine eq_of_get? (ascending_insert (ascending_erase h key) key a) h fun other => ?_
  rw [get?_insert]
  split
  · next heq => exact heq ▸ ha.symm
  · next hne => rw [get?_erase, if_neg hne]

/-- A key above all others goes to the end. -/
theorem insert_of_forall_lt (h : ∀ e ∈ t, e.1 < key) : t.insert key a = t ++ [(key, a)] := by
  induction t with
  | nil => rfl
  | cons e t ih =>
    obtain ⟨he, ht⟩ := List.forall_mem_cons.mp h
    rw [insert, if_neg (String.lt_asymm he), if_neg (String.ne_of_lt he).symm, ih ht,
      List.cons_append]

/-- A list of entries whose keys ascend is its own table. -/
theorem ofList_eq_self (h : Ascending t) : ofList t = t := by
  -- entries are put in one by one, each behind those before it
  have hfold : ∀ u done : Table α, Ascending (done ++ u) →
      u.foldl (fun t e => Table.insert t e.1 e.2) done = done ++ u := by
    intro u
    induction u with
    | nil => exact fun done _ => (List.append_nil done).symm
    | cons e u ih =>
      intro done hasc
      have hlast : ∀ d ∈ done, d.1 < e.1 := fun d hd =>
        (List.pairwise_append.mp hasc).2.2 d hd e List.mem_cons_self
      rw [List.foldl_cons, insert_of_forall_lt hlast, ih _ (by rwa [List.append_assoc]),
        List.append_assoc]
      rfl
  exact hfold t [] h

end Table

end SnapshotDiff
