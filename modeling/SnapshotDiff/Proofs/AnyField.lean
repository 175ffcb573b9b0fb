import SnapshotDiff.Proofs.Json.Injective
import SnapshotDiff.Proofs.Leaf

/-!
# Fields that take any value

A field that takes any value is compared by the text of the value.  The text tells apart what
equality of values tells apart, and one thing more: the sign of a zero.  A value in a free object is
compared by equality, so there a zero may change its sign unseen.

## Main definitions

* `Binary64.value` — a number as a number of units, where zero has no sign.
* `Json.zeroSigns` — the signs of the zeros in a value.

## Main results

* `Binary64.sameValue_iff_value_eq` — numbers are equal if their values are.
* `Json.same_obj_iff` — objects are equal if they have equal values under every key.
* `Json.text_eq_iff` — values have one text if they are equal and their zeros have the same signs.
* `Rules.modified_any_iff` — **a field that takes any value is modified if and only if its values
  are not equal, or are equal with zeros of different signs; in a free object the signs of zeros
  make no difference.**
-/

namespace SnapshotDiff

/-! ### Numbers -/

namespace Binary64

variable {x y : Binary64}

/-- The number in units of `2 ^ -1074`. -/
def value (x : Binary64) : Int := if x.negative then -x.magnitude else x.magnitude

theorem magnitude_eq_zero_iff : x.magnitude = 0 ↔ x.rank.val = 0 := by
  constructor
  · intro h
    by_contra hne
    exact absurd h (magnitude_pos hne).ne'
  · intro h
    rw [magnitude, h, if_pos (by decide)]

/-- A rank is determined by its magnitude. -/
theorem rank_eq_of_magnitude_eq (h : x.magnitude = y.magnitude) : x.rank = y.rank := by
  apply Fin.ext
  rw [← rank_of_magnitude x, ← rank_of_magnitude y, h]

/-- Two numbers are equal if they stand for one value. -/
theorem sameValue_iff_value_eq : x.sameValue y ↔ x.value = y.value := by
  rw [sameValue_iff, ← magnitude_eq_zero_iff, ← magnitude_eq_zero_iff]
  obtain ⟨a, m⟩ := x
  obtain ⟨b, n⟩ := y
  constructor
  · rintro (h | ⟨hx, hy⟩)
    · rw [h]
    · simp [value, hx, hy]
  · intro h
    have hmagnitude : magnitude ⟨a, m⟩ = magnitude ⟨b, n⟩ := by
      unfold value at h
      split at h <;> split at h <;> omega
    by_cases hzero : magnitude ⟨a, m⟩ = 0
    · exact Or.inr ⟨hzero, hmagnitude ▸ hzero⟩
    · have hsign : a = b := by
        unfold value at h
        generalize magnitude ⟨a, m⟩ = k, magnitude ⟨b, n⟩ = l at h hmagnitude hzero
        subst hmagnitude
        cases a <;> cases b <;> simp only [Bool.false_eq_true, if_true, if_false] at h ⊢ <;> omega
      exact Or.inl (by rw [hsign, show m = n from rank_eq_of_magnitude_eq hmagnitude])

/-- Equal numbers are one number, unless they are zeros of different signs. -/
theorem eq_of_sameValue (h : x.sameValue y) (hsign : x.rank.val = 0 → x.negative = y.negative) :
    x = y := by
  rcases sameValue_iff.mp h with rfl | ⟨hx, hy⟩
  · rfl
  · obtain ⟨a, m⟩ := x
    obtain ⟨b, n⟩ := y
    rw [show a = b from hsign hx, show m = n from Fin.ext (hx.trans hy.symm)]

end Binary64

/-! ### The signs of zeros -/

namespace Json

mutual

/-- The signs of the zeros in a value, in the order of its text. -/
def zeroSigns : Json → List Bool
  | float x => if x.rank.val = 0 then [x.negative] else []
  | arr vs => itemZeroSigns vs
  | obj ms => memberZeroSigns ms
  | null | bool _ | int _ | str _ => []

/-- The signs of the zeros in the items. -/
def itemZeroSigns : List Json → List Bool
  | [] => []
  | v :: vs => zeroSigns v ++ itemZeroSigns vs

/-- The signs of the zeros in the members. -/
def memberZeroSigns : List (String × Json) → List Bool
  | [] => []
  | (_, v) :: ms => zeroSigns v ++ memberZeroSigns ms

end

mutual

/-- Equal values have their zeros in the same places. -/
theorem length_zeroSigns_of_same : ∀ {v w : Json}, same v w →
    v.zeroSigns.length = w.zeroSigns.length
  | arr vs, w, h => by
    obtain ⟨ws, rfl, hvs⟩ := exists_arr_of_same h
    exact length_itemZeroSigns hvs
  | obj ms, w, h => by
    obtain ⟨ns, rfl, hms⟩ := exists_obj_of_same h
    exact length_memberZeroSigns hms
  | float x, w, h => by
    obtain ⟨y, rfl, hxy⟩ := exists_float_of_same h
    rw [zeroSigns, zeroSigns]
    rcases Binary64.sameValue_iff.mp hxy with rfl | ⟨hx, hy⟩
    · rfl
    · rw [if_pos hx, if_pos hy]
      rfl
  | null, w, h | bool _, w, h | int _, w, h | str _, w, h => by
    rw [eq_of_same h] <;> simp

theorem length_itemZeroSigns : ∀ {vs ws : List Json}, sameItems vs ws →
    (itemZeroSigns vs).length = (itemZeroSigns ws).length
  | [], [], _ => rfl
  | v :: vs, w :: ws, h => by
    rw [sameItems, Bool.and_eq_true] at h
    rw [itemZeroSigns, itemZeroSigns, List.length_append, List.length_append,
      length_zeroSigns_of_same h.1, length_itemZeroSigns h.2]

theorem length_memberZeroSigns : ∀ {ms ns : List (String × Json)}, sameMembers ms ns →
    (memberZeroSigns ms).length = (memberZeroSigns ns).length
  | [], [], _ => rfl
  | (_, v) :: ms, (_, w) :: ns, h => by
    rw [sameMembers, Bool.and_eq_true, Bool.and_eq_true] at h
    rw [memberZeroSigns, memberZeroSigns, List.length_append, List.length_append,
      length_zeroSigns_of_same h.1.2, length_memberZeroSigns h.2]

end

mutual

/-- Equal values whose zeros have the same signs are one value. -/
theorem eq_of_same_of_zeroSigns : ∀ {v w : Json}, same v w → v.zeroSigns = w.zeroSigns → v = w
  | arr vs, w, h, hsigns => by
    obtain ⟨ws, rfl, hvs⟩ := exists_arr_of_same h
    exact congrArg arr (items_eq_of_same hvs hsigns)
  | obj ms, w, h, hsigns => by
    obtain ⟨ns, rfl, hms⟩ := exists_obj_of_same h
    exact congrArg obj (members_eq_of_same hms hsigns)
  | float x, w, h, hsigns => by
    obtain ⟨y, rfl, hxy⟩ := exists_float_of_same h
    refine congrArg float (Binary64.eq_of_sameValue hxy fun hx => ?_)
    rcases Binary64.sameValue_iff.mp hxy with rfl | ⟨-, hy⟩
    · rfl
    · rw [zeroSigns, zeroSigns, if_pos hx, if_pos hy] at hsigns
      exact (List.cons.inj hsigns).1
  | null, w, h, _ | bool _, w, h, _ | int _, w, h, _ | str _, w, h, _ => by
    rw [eq_of_same h] <;> simp

theorem items_eq_of_same : ∀ {vs ws : List Json}, sameItems vs ws →
    itemZeroSigns vs = itemZeroSigns ws → vs = ws
  | [], [], _, _ => rfl
  | v :: vs, w :: ws, h, hsigns => by
    rw [sameItems, Bool.and_eq_true] at h
    rw [itemZeroSigns, itemZeroSigns] at hsigns
    obtain ⟨hfirst, hrest⟩ := List.append_inj hsigns (length_zeroSigns_of_same h.1)
    rw [eq_of_same_of_zeroSigns h.1 hfirst, items_eq_of_same h.2 hrest]

theorem members_eq_of_same : ∀ {ms ns : List (String × Json)}, sameMembers ms ns →
    memberZeroSigns ms = memberZeroSigns ns → ms = ns
  | [], [], _, _ => rfl
  | (k, v) :: ms, (l, w) :: ns, h, hsigns => by
    rw [sameMembers, Bool.and_eq_true, Bool.and_eq_true, beq_iff_eq] at h
    obtain ⟨⟨rfl, hvw⟩, hms⟩ := h
    rw [memberZeroSigns, memberZeroSigns] at hsigns
    obtain ⟨hfirst, hrest⟩ := List.append_inj hsigns (length_zeroSigns_of_same hvw)
    rw [eq_of_same_of_zeroSigns hvw hfirst, members_eq_of_same hms hrest]

end

/-- **What the text of a value tells.**  Two values have one text if they are equal and their zeros
have the same signs. -/
theorem text_eq_iff {v w : Json} : v.text = w.text ↔ same v w ∧ v.zeroSigns = w.zeroSigns := by
  constructor
  · intro h
    obtain rfl := text_inj h
    exact ⟨same_refl v, rfl⟩
  · rintro ⟨hsame, hsigns⟩
    rw [eq_of_same_of_zeroSigns hsame hsigns]

/-! ### The order of keys -/

theorem sameMembers_of_keys_eq {ms ns : Table Json} (hms : ms.Ascending) (hkeys : ms.keys = ns.keys)
    (h : ∀ key, same? (ms.get? key) (ns.get? key)) : sameMembers ms ns := by
  induction ms generalizing ns with
  | nil =>
    obtain rfl : ns = [] := List.map_eq_nil_iff.mp hkeys.symm
    rfl
  | cons m ms ih =>
    obtain ⟨k, v⟩ := m
    cases ns with
    | nil => simp [Table.keys] at hkeys
    | cons n ns =>
      obtain ⟨l, w⟩ := n
      obtain ⟨rfl, hrest⟩ : k = l ∧ Table.keys ms = Table.keys ns := List.cons.inj hkeys
      have hnotMem : k ∉ Table.keys ms := (List.nodup_cons.mp hms.nodup_keys).1
      rw [sameMembers, Bool.and_eq_true, Bool.and_eq_true, beq_iff_eq]
      refine ⟨⟨rfl, ?_⟩, ih (List.pairwise_cons.mp hms).2 hrest fun key => ?_⟩
      · simpa [Table.get?_cons] using h k
      · by_cases hkey : key = k
        · subst hkey
          have hnone : ∀ {t : Table Json}, key ∉ Table.keys t → t.get? key = none := fun ht =>
            Option.not_isSome_iff_eq_none.mp fun hsome => ht (Table.get?_isSome_iff_mem.mp hsome)
          rw [hnone hnotMem, hnone (hrest ▸ hnotMem)]
          rfl
        · simpa [Table.get?_cons, Ne.symm hkey] using h key

/-- Objects are equal if they have equal values under every key. -/
theorem same_obj_iff {ms ns : Table Json} (hms : ms.Ascending) (hns : ns.Ascending) :
    same (obj ms) (obj ns) ↔ ∀ key, same? (ms.get? key) (ns.get? key) := by
  constructor
  · intro h key
    have hrel := rel_lookup_of_sameMembers h key
    rw [← Table.get?_eq_lookup, ← Table.get?_eq_lookup] at hrel
    cases hv : ms.get? key <;> cases hw : ns.get? key <;> rw [hv, hw] at hrel <;> simp_all
  · intro h
    refine sameMembers_of_keys_eq hms (Table.keys_eq_of_isSome hms hns fun key => ?_) h
    have hkey := h key
    cases hv : ms.get? key <;> cases hw : ns.get? key <;> simp_all

end Json

/-! ### Comparing -/

variable {rules : Rules} {name : String} {v w : Json}

theorem Leaf.key_any (v : Json) : Leaf.any.key v = .ok v.text := rfl

/-- The change of a value in a free object, unless it is an object on both sides. -/
theorem Finding.ofFreeMember_of_not_objects (o : Owner) (path : String) (hv : v ≠ .null)
    (hobj : ∀ ms ns, v = .obj ms → w = .obj ns → False) :
    ofFreeMember rules o name path (some w) v
      = if Json.same v w then [] else [field o ⟨.modified, name, path, some v, some w⟩] := by
  have hvalues : ofFreeMember rules o name path (some w) v
      = ofValues o name path (some v) (some w) (Json.same v w) := by
    rw [ofFreeMember_eq_ofFreeValues, present?_eq_some_iff.mpr ⟨rfl, hv⟩, ofFreeValues.eq_def]
    split
    · next ms ns hms hns => exact absurd (Option.some.inj hns) (hobj ms ns (Option.some.inj hms))
    · rfl
  rw [hvalues]
  cases Json.same v w <;> rfl

/-- **Fields that take any value.**  Such a field is modified if and only if its values are not
equal, or are equal with zeros of different signs.  Two values under one key of a free object,
unless both are objects, count as modified if and only if they are not equal. -/
theorem Rules.modified_any_iff (v w : Json) :
    (v.text = w.text ↔ Json.same v w ∧ v.zeroSigns = w.zeroSigns)
      ∧ (∀ (rules : Rules) (name : String) {s t : Option Json} {r : Option ChangeRecord},
        rules.shape.isAddressable → rules.reshape? = none →
        (name, .leaf .any) ∈ rules.shape.fields → rules.reportable name →
        s.bind (·.member? name) = some v → t.bind (·.member? name) = some w →
        v ≠ .null → w ≠ .null → rules.diff s t = .ok r →
          ∀ c, c ∈ (r.getD .nothing).fields ∧ Path.within c.path name
            ↔ ¬(Json.same v w ∧ v.zeroSigns = w.zeroSigns)
              ∧ c = ⟨.modified, name, name, some v, some w⟩)
      ∧ (∀ (rules : Rules) (o : Owner) (name path : String),
        Finding.ofField rules o name path (some (.leaf v v.text)) (some (.leaf w w.text))
            (.leaf .any)
          = if Json.same v w ∧ v.zeroSigns = w.zeroSigns then []
            else [.field o ⟨.modified, name, path, some v, some w⟩])
      ∧ (v ≠ .null → (∀ ms ns, v = .obj ms → w = .obj ns → False) →
        ∀ (rules : Rules) (o : Owner) (name path : String),
          Finding.ofFreeMember rules o name path (some w) v
            = if Json.same v w then []
              else [.field o ⟨.modified, name, path, some v, some w⟩]) := by
  refine ⟨Json.text_eq_iff, ?_, ?_, ?_⟩
  · intro rules name s t r hs hreshape hname hreport hv hw hvnull hwnull h c
    obtain ⟨k, l, hk, hl, htold⟩ :=
      mem_fields_leaf_iff hs hreshape hname hreport hv hw hvnull hwnull h
    obtain rfl : v.text = k := Except.ok.inj (Leaf.key_any v ▸ hk)
    obtain rfl : w.text = l := Except.ok.inj (Leaf.key_any w ▸ hl)
    rw [htold, ne_eq, Json.text_eq_iff]
  · intro rules o name path
    simp only [Finding.ofField_leaf, Json.text_eq_iff]
  · exact fun hv hobj rules o name path => Finding.ofFreeMember_of_not_objects o path hv hobj

/-- Rules for objects with one field, which takes any value. -/
def Rules.reading : Rules where
  family := .item
  shape := ⟨"Reading", [("x", .leaf .any)]⟩

/-- An object with a zero. -/
def Rules.zeroRead (negative : Bool) : Json := .obj [("x", .float (.zero negative))]

/-- The change of a zero that gets a sign. -/
def Rules.zeroSigned : FieldChange :=
  ⟨.modified, "x", "x", some (.float (.zero false)), some (.float (.zero true))⟩

/-- A zero that gets a sign is a change of such a field, and none in a free object. -/
theorem Rules.modified_any_iff_zeros :
    Json.same (.float (.zero false)) (.float (.zero true))
      ∧ (∃ r, reading.diff (some (zeroRead false)) (some (zeroRead true)) = .ok (some r)
        ∧ zeroSigned ∈ r.fields)
      ∧ ∀ o, Finding.ofFreeMember reading o "x" "x" (some (.float (.zero true)))
          (.float (.zero false)) = [] := by
  obtain ⟨-, htold, -, hfree⟩ := modified_any_iff (.float (.zero false)) (.float (.zero true))
  refine ⟨by decide, ⟨_, rfl, ?_⟩, fun o => ?_⟩
  · have hiff := htold reading "x" (s := some (zeroRead false)) (t := some (zeroRead true))
      (by decide) rfl List.mem_cons_self rfl rfl rfl (by simp) (by simp) rfl zeroSigned
    exact (hiff.mpr ⟨by decide, rfl⟩).1
  · rw [hfree (by simp) (by simp)]
    rfl

end SnapshotDiff
