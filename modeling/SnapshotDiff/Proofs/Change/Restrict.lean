import SnapshotDiff.Proofs.Change.Alike
import SnapshotDiff.Proofs.OnePass

/-!
# What is left of a record

A record can be cut down to the changes of some fields and collections, and in these to some changes
of members.  The cut can be made change by change, before equal changes of a collection are told
apart, as long as that does not bring out a change to which an equal one was left out.

## Main definitions

* `ChangeRecord.restrict` — what is left of a record.
* `Change.restrict` — what is left of a change.

## Main results

* `Change.record?_filterMap_restrict` — a record of what is left is what is left of the record.
* `Change.filterMap_restrict_ofItems_of_pairwise` — what is left of a collection.
-/

namespace SnapshotDiff

/-- What is left of a record if changes are told of some paths only, and of the changes of members
only some are kept.  Without any change there is no record. -/
def ChangeRecord.restrict (shown : String → Bool) (keep : String → ItemChange → Bool)
    (r : ChangeRecord) : Option ChangeRecord :=
  of? (r.fields.filter fun c => shown c.path)
    ((r.collections.filter fun c => shown c.name).map fun c =>
      { c with items := c.items.filter (keep c.name) })

/-- Collections without changes make no difference to a record. -/
theorem ChangeRecord.of?_filter (fields : List FieldChange) (collections : List CollectionChange) :
    of? fields (collections.filter fun c => !c.items.isEmpty) = of? fields collections := by
  have hempty : ∀ c : CollectionChange,
      (!(c.items.filter (·.kind.isChange)).isEmpty && !c.items.isEmpty)
        = !(c.items.filter (·.kind.isChange)).isEmpty := by
    intro c
    cases c.items <;> simp
  simp only [of?, List.filter_map, List.filter_filter, Function.comp_def, hempty]

namespace Change

variable {path : String} {shown : String → Bool} {keep : String → ItemChange → Bool}

/-- What is left of a change. -/
def restrict (shown : String → Bool) (keep : String → ItemChange → Bool) : Change → Option Change
  | field c => if shown c.path then some (field c) else none
  | collection c =>
    let left := c.items.filter (keep c.name)
    if shown c.name && !left.isEmpty then some (collection { c with items := left }) else none

theorem restrict_eq_none {c : Change} (h : shown c.path = false) :
    c.restrict shown keep = none := by
  cases c with
  | field c => exact if_neg (by simpa [path] using h)
  | collection c => exact if_neg (by simp [show shown c.name = false from h])

theorem isTelling_of_restrict {c c' : Change} (hc : c.IsTelling)
    (h : c.restrict shown keep = some c') : c'.IsTelling := by
  cases c with
  | field c =>
    simp only [restrict, Option.ite_none_right_eq_some, Option.some.injEq] at h
    exact h.2 ▸ hc
  | collection c =>
    simp only [restrict, Option.ite_none_right_eq_some, Option.some.injEq, Bool.and_eq_true] at h
    obtain ⟨⟨-, hne⟩, rfl⟩ := h
    exact ⟨by simpa using hne, fun i hi => hc.2 i (List.mem_filter.mp hi).1⟩

theorem filterMap_restrict_field? (cs : List Change) :
    (cs.filterMap (restrict shown keep)).filterMap field?
      = (cs.filterMap field?).filter fun c => shown c.path := by
  induction cs with
  | nil => rfl
  | cons c cs ih =>
    cases c with
    | field c =>
      cases h : shown c.path <;> simp [restrict, field?, h, ih]
    | collection c =>
      cases h : shown c.name <;> cases h' : (c.items.filter (keep c.name)).isEmpty <;>
        simp [List.filterMap_cons, restrict, field?, h, h', ih]

theorem filterMap_restrict_collection? (cs : List Change) :
    (cs.filterMap (restrict shown keep)).filterMap collection?
      = (((cs.filterMap collection?).filter fun c => shown c.name).map fun c =>
          { c with items := c.items.filter (keep c.name) }).filter fun c => !c.items.isEmpty := by
  induction cs with
  | nil => rfl
  | cons c cs ih =>
    cases c with
    | field c =>
      cases h : shown c.path <;> simp [List.filterMap_cons, restrict, collection?, h, ih]
    | collection c =>
      cases h : shown c.name <;> cases h' : (c.items.filter (keep c.name)).isEmpty <;>
        simp [restrict, collection?, h, h', ih]

/-- **A record of what is left is what is left of the record.** -/
theorem record?_filterMap_restrict {cs : List Change} (hcs : ∀ c ∈ cs, c.IsTelling) :
    record? (cs.filterMap (restrict shown keep))
      = (record? cs).bind (ChangeRecord.restrict shown keep) := by
  have hleft : ∀ c ∈ cs.filterMap (restrict shown keep), c.IsTelling := by
    intro c hc
    obtain ⟨d, hd, hdc⟩ := List.mem_filterMap.mp hc
    exact isTelling_of_restrict (hcs d hd) hdc
  rw [← of?_eq_record? hleft, filterMap_restrict_field?, filterMap_restrict_collection?,
    ChangeRecord.of?_filter]
  cases cs with
  | nil => rfl
  | cons c cs => rfl

/-! ### Collections -/

theorem filterMap_restrict_map_field (cs : List FieldChange) :
    (cs.map field).filterMap (restrict shown keep)
      = (cs.filter fun c => shown c.path).map field := by
  induction cs with
  | nil => rfl
  | cons c cs ih => cases h : shown c.path <;> simp_all [restrict]

/-- What is left of a collection, if to leave out changes does not bring out others that are equal
to them. -/
theorem filterMap_restrict_ofItems (hpath : shown path) {items : List ItemChange}
    (h : (items.foldl CollectionChange.push ⟨path, []⟩).items.filter (keep path)
      = ((items.filter (keep path)).foldl CollectionChange.push ⟨path, []⟩).items) :
    (ofItems path items).filterMap (restrict shown keep)
      = ofItems path (items.filter (keep path)) := by
  have hname : ∀ items : List ItemChange,
      (items.foldl CollectionChange.push ⟨path, []⟩).name = path :=
    fun items => CollectionChange.name_foldl_push items _
  by_cases hnone : items = []
  · rw [hnone]
    rfl
  · rw [ofItems, if_neg (by simpa using hnone), List.filterMap_cons, restrict, hname, h, hpath]
    by_cases hleft : items.filter (keep path) = []
    · rw [hleft]
      rfl
    · have hne := CollectionChange.items_ne_nil_of_ne_nil hleft path
      rw [if_pos (by simpa using hne), ofItems, if_neg (by simpa using hleft)]
      -- a change of a collection is its name and its items
      have hself : ∀ c : CollectionChange, c.name = path → ⟨path, c.items⟩ = c :=
        fun c hc => hc ▸ rfl
      rw [hself _ (hname _)]
      rfl

/-- Collections of members that are never modified are left as they are. -/
theorem filterMap_restrict_ofItems_self (hpath : shown path) {items : List ItemChange}
    (h : items.filter (keep path) = items) :
    (ofItems path items).filterMap (restrict shown keep) = ofItems path items := by
  rw [filterMap_restrict_ofItems hpath, h]
  rw [h]
  refine List.filter_eq_self.mpr fun i hi => ?_
  rcases CollectionChange.mem_items_foldl_push hi with hi | hi
  · exact absurd hi List.not_mem_nil
  · exact List.filter_eq_self.mp h i hi

/-- If no two changes of a collection are equal, none is brought out by leaving out others. -/
theorem filterMap_restrict_ofItems_of_pairwise (hpath : shown path) {items : List ItemChange}
    (h : items.Pairwise fun i j => ¬i.same j) :
    (ofItems path items).filterMap (restrict shown keep)
      = ofItems path (items.filter (keep path)) := by
  refine filterMap_restrict_ofItems hpath ?_
  rw [CollectionChange.items_foldl_push items ⟨path, []⟩ h,
    CollectionChange.items_foldl_push _ ⟨path, []⟩ (h.filter _)]
  rfl

end Change

end SnapshotDiff
