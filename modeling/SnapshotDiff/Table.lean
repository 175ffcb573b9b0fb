/-!
# Tables

A table holds values under text keys.  It is a list of entries in strictly ascending order
of their keys, so that two tables with the same entries are the same list, and walking a
table from the front visits the keys in order.

## Main definitions

* `Table` — the entries.
* `Table.get?`, `Table.insert`, `Table.erase` — the operations.
* `Table.Ascending` — the order itself.

## Main results

* `Table.get?_insert`, `Table.get?_erase` — what is found afterwards.
* `Table.ascending_insert`, `Table.ascending_ofList`, `Table.ascending_erase` — the operations
  keep the order.
-/

namespace SnapshotDiff

/-- Values under text keys, in ascending key order. -/
abbrev Table (α : Type u) := List (String × α)

namespace Table

variable {α : Type u}

/-- The keys strictly ascend. -/
def Ascending (t : Table α) : Prop := t.Pairwise fun a b => a.1 < b.1

/-- The value under `key`. -/
def get? : Table α → String → Option α
  | [], _ => none
  | (k, v) :: t, key => if k = key then some v else get? t key

/-- Whether `key` has a value. -/
def contains (t : Table α) (key : String) : Bool := (get? t key).isSome

/-- Puts `value` under `key`, in place of the value that was there. -/
def insert : Table α → String → α → Table α
  | [], key, value => [(key, value)]
  | (k, v) :: t, key, value =>
    if key < k then (key, value) :: (k, v) :: t
    else if key = k then (key, value) :: t
    else (k, v) :: insert t key value

/-- Drops the entry under `key`. -/
def erase (t : Table α) (key : String) : Table α := t.filter fun e => e.1 ≠ key

/-- The keys in ascending order. -/
def keys (t : Table α) : List String := t.map Prod.fst

/-- The table of a list of entries; of two entries under one key the later one stands. -/
def ofList (entries : List (String × α)) : Table α :=
  entries.foldl (fun t e => insert t e.1 e.2) []

@[simp] theorem get?_nil (key : String) : get? ([] : Table α) key = none := rfl

@[simp] theorem get?_cons (k : String) (v : α) (t : Table α) (key : String) :
    get? ((k, v) :: t) key = if k = key then some v else get? t key := rfl

@[simp] theorem keys_cons (e : String × α) (t : Table α) : keys (e :: t) = e.1 :: keys t := rfl

@[simp] theorem ofList_nil : ofList ([] : List (String × α)) = [] := rfl

/-- The last entry inserted under a key is the one found there. -/
theorem get?_insert (t : Table α) (key other : String) (value : α) :
    get? (insert t key value) other = if key = other then some value else get? t other := by
  induction t with
  | nil => rfl
  | cons e t ih =>
    obtain ⟨k, v⟩ := e
    simp only [insert]
    split
    · rfl
    · split
      · next _ h => subst h; simp only [get?_cons]; split <;> rfl
      · next _ h =>
        simp only [get?_cons, ih]
        by_cases hk : k = other
        · have : key ≠ other := fun hko => h (hko.trans hk.symm)
          simp [hk, this]
        · simp [hk]

/-- What was erased is not found, and everything else still is. -/
theorem get?_erase (t : Table α) (key other : String) :
    get? (erase t key) other = if key = other then none else get? t other := by
  induction t with
  | nil => simp [erase]
  | cons e t ih =>
    obtain ⟨k, v⟩ := e
    simp only [erase, List.filter_cons, ne_eq, decide_not] at ih ⊢
    by_cases hk : k = key
    · subst hk
      by_cases ho : k = other
      · subst ho; simp [ih]
      · simp [ho, ih]
    · by_cases ho : k = other
      · subst ho; simp [hk, Ne.symm hk]
      · simp [hk, ho, ih]

/-- A bound below the keys of a table and below a new key is one below the keys afterwards. -/
theorem lt_of_mem_insert {t : Table α} {low key : String} {value : α} (hkey : low < key)
    (ht : ∀ e ∈ t, low < e.1) : ∀ e ∈ insert t key value, low < e.1 := by
  induction t with
  | nil => simpa [insert] using hkey
  | cons e t ih =>
    obtain ⟨k, v⟩ := e
    simp only [List.forall_mem_cons] at ht
    simp only [insert]
    split
    · exact List.forall_mem_cons.mpr ⟨hkey, List.forall_mem_cons.mpr ht⟩
    · split
      · exact List.forall_mem_cons.mpr ⟨hkey, ht.2⟩
      · exact List.forall_mem_cons.mpr ⟨ht.1, ih ht.2⟩

/-- Inserting keeps the order. -/
theorem ascending_insert {t : Table α} (h : Ascending t) (key : String) (value : α) :
    Ascending (insert t key value) := by
  induction t with
  | nil => simp [Ascending, insert]
  | cons e t ih =>
    obtain ⟨k, v⟩ := e
    obtain ⟨hk, ht⟩ := List.pairwise_cons.mp h
    simp only [insert]
    split
    · next hlt =>
      exact List.pairwise_cons.mpr
        ⟨List.forall_mem_cons.mpr ⟨hlt, fun e he => String.lt_trans hlt (hk e he)⟩, h⟩
    · split
      · next heq => exact List.pairwise_cons.mpr ⟨by simpa [heq] using hk, ht⟩
      · next hnlt hne =>
        have hlt : k < key :=
          String.not_le.mp fun hle => hne (String.le_antisymm hle (String.not_lt.mp hnlt))
        exact List.pairwise_cons.mpr ⟨lt_of_mem_insert hlt hk, ih ht⟩

/-- The keys of a table that was made of a list of entries ascend. -/
theorem ascending_ofList (entries : List (String × α)) : Ascending (ofList entries) := by
  have h : ∀ t : Table α, Ascending t →
      Ascending (entries.foldl (fun t e => insert t e.1 e.2) t) := by
    induction entries with
    | nil => exact fun _ h => h
    | cons e es ih => exact fun t h => ih _ (ascending_insert h e.1 e.2)
  exact h [] List.Pairwise.nil

/-- Erasing keeps the order. -/
theorem ascending_erase {t : Table α} (h : Ascending t) (key : String) : Ascending (erase t key) :=
  List.Pairwise.filter _ h

end Table

end SnapshotDiff
