import SnapshotDiff.Proofs.Change.Fields
import SnapshotDiff.Proofs.Change.Outline
import SnapshotDiff.Proofs.Json.Canonical

/-!
# Fields without a change

If a field has not changed between two values, either of them may stand for the other in a
comparison: the kinds and paths of the changes to a third value are the same.  For leaves this is
because keys are compared by equality, and for values in free objects because equality of values
is an equivalence.

## Main definitions

* `FieldChange.ofFreeValues`, `FieldChange.ofFreeSides` — the changes of one value of a free object.

## Main results

* `FieldChange.ofFree_eq_nil` — equal free objects do not differ.
* `FieldChange.ofFree_congr` — free objects that do not differ can stand for each other.
-/

namespace SnapshotDiff

open Finding (present? mem_of_present?_lookup sides)

namespace FieldChange

variable {rules : Rules} {name path : String}

/-! ### Values -/

/-- There is no change if both values are absent, or if both are there and equal. -/
theorem ofValues_eq_nil_iff {old new : Option Json} {equal : Bool} :
    ofValues name path old new equal = []
      ↔ old = none ∧ new = none ∨ old.isSome ∧ new.isSome ∧ equal := by
  cases old <;> cases new <;> simp [ofValues]

/-- The outline depends on presence, and on equality where both values are there. -/
theorem outline_ofValues_congr {a b c : Option Json} {e e' : Bool} (hsome : a.isSome = b.isSome)
    (he : a.isSome → c.isSome → e = e') :
    (ofValues name path a c e).map outline = (ofValues name path b c e').map outline := by
  cases a with
  | none =>
    cases b with
    | none => cases c <;> rfl
    | some b => simp at hsome
  | some a =>
    cases b with
    | none => simp at hsome
    | some b =>
      cases c with
      | none => rfl
      | some c =>
        rw [he rfl rfl]
        cases e' <;> rfl

theorem ofLeaves_self (a : Option (Json × String)) : ofLeaves name path a a = [] := by
  cases a <;> simp [ofLeaves, ofValues]

/-- Leaves that do not differ can stand for each other. -/
theorem ofLeaves_congr {a b c : Option (Json × String)} (h : ofLeaves name path a b = []) :
    (ofLeaves name path a c).map outline = (ofLeaves name path b c).map outline := by
  cases a with
  | none =>
    cases b with
    | none => rfl
    | some b => simp [ofLeaves, ofValues] at h
  | some a =>
    cases b with
    | none => simp [ofLeaves, ofValues] at h
    | some b =>
      have hkey : a.2 = b.2 := by simpa [ofLeaves, ofValues] using h
      cases c with
      | none => rfl
      | some c =>
        unfold ofLeaves
        exact outline_ofValues_congr rfl fun _ _ => by rw [hkey]

/-! ### Values of free objects -/

/-- The changes of two values of a free object, neither of which is `null`. -/
def ofFreeValues (rules : Rules) (name path : String) : Option Json → Option Json → List FieldChange
  | some (.obj ms), some (.obj ns) => ofFree rules path ms ns
  | old, new => ofValues name path old new (Json.same? old new)

/-- The changes under one key of a free object. -/
def ofFreeSides (rules : Rules) (path key : String) (old new : Option Json) : List FieldChange :=
  if rules.reportable (Path.child path key) then
    ofFreeValues rules key (Path.child path key) (present? old) (present? new)
  else []

theorem ofFreeValues_eq_ofValues {a b : Option Json}
    (h : ∀ ms ns, a = some (.obj ms) → b = some (.obj ns) → False) :
    ofFreeValues rules name path a b = ofValues name path a b (Json.same? a b) := by
  rw [ofFreeValues]
  exact h

@[simp] theorem ofFreeSides_none_none (key : String) :
    ofFreeSides rules path key none none = [] := by
  rw [ofFreeSides, show present? none = none from rfl,
    ofFreeValues_eq_ofValues fun _ _ h => by simp at h, ofValues, ite_self]

theorem ofFreeValues_eq_findings (o : Owner) (a b : Option Json) :
    Finding.ofFreeValues rules o name path a b
      = (ofFreeValues rules name path a b).map (Finding.field o) := by
  by_cases h : ∃ ms ns, a = some (.obj ms) ∧ b = some (.obj ns)
  · obtain ⟨ms, ns, rfl, rfl⟩ := h
    exact Finding.ofFree_eq_map _ _ _
  · have hobj : ∀ ms ns, a = some (.obj ms) → b = some (.obj ns) → False :=
      fun ms ns ha hb => h ⟨ms, ns, ha, hb⟩
    rw [ofFreeValues_eq_ofValues hobj, Finding.ofFreeValues]
    · exact Finding.ofValues_eq_map _ _ _ _ _
    · exact hobj

theorem ofFreeSides_eq_findings (o : Owner) (key : String) (old new : Option Json) :
    Finding.ofFreeSides rules o path key old new
      = (ofFreeSides rules path key old new).map (Finding.field o) := by
  rw [Finding.ofFreeSides, ofFreeSides]
  split
  · exact ofFreeValues_eq_findings o _ _
  · rfl

/-- The members of a free object are walked as the members of a collection are. -/
theorem ofFree_eq_sides (old new : Table Json) :
    ofFree rules path old new = sides (ofFreeSides rules path) old new := by
  have hfield : Function.Injective (Finding.field (Owner.root "")) := fun _ _ h => by cases h; rfl
  -- the findings of the walk are its changes with an owner, so that their lemma is used
  apply List.map_injective_iff.mpr hfield
  rw [← Finding.ofFree_eq_map, Finding.ofFree_eq_sides, Finding.map_sides]
  congr 1
  funext k a b
  exact ofFreeSides_eq_findings _ k a b

theorem same?_of_ofFreeValues_eq_nil {a b : Option Json}
    (hobj : ∀ ms ns, a = some (.obj ms) → b = some (.obj ns) → False)
    (h : ofFreeValues rules name path a b = []) : Json.same? a b := by
  rw [ofFreeValues_eq_ofValues hobj] at h
  rcases ofValues_eq_nil_iff.mp h with ⟨rfl, rfl⟩ | ⟨-, -, hsame⟩
  · rfl
  · exact hsame

/-! ### Free objects that do not differ -/

theorem ofFree_eq_nil_of_values {ms ns : Table Json} (hms : (Json.obj ms).Canonical)
    (hns : (Json.obj ns).Canonical)
    (hvalues : ∀ m ∈ ms, ∀ {name path : String} {w : Json}, w.Canonical → Json.same m.2 w →
      ofFreeValues rules name path (some m.2) (some w) = [])
    (h : ∀ k, rules.reportable (Path.child path k) →
      Option.Rel (fun v w => Json.same v w = true) (present? (ms.lookup k))
        (present? (ns.lookup k))) :
    ofFree rules path ms ns = [] := by
  rw [Json.canonical_obj_iff] at hms hns
  rw [ofFree_eq_sides,
    Finding.sides_eq_nil_iff ofFreeSides_none_none hms.1.nodup_keys hns.1.nodup_keys]
  intro k
  unfold ofFreeSides
  split
  · next hreport =>
    have hrel := h k hreport
    generalize hv : present? (ms.lookup k) = v at hrel ⊢
    generalize hw : present? (ns.lookup k) = w at hrel ⊢
    cases hrel with
    | none => rw [ofFreeValues_eq_ofValues fun _ _ h => by simp at h]; rfl
    | some hsame =>
      exact hvalues _ (mem_of_present?_lookup hv) (hns.2 _ (mem_of_present?_lookup hw)) hsame
  · rfl

/-- Values that are equal do not differ. -/
theorem ofFreeValues_of_same (v : Json) : v.Canonical → ∀ {name path : String} {w : Json},
    w.Canonical → Json.same v w → ofFreeValues rules name path (some v) (some w) = [] := by
  induction v using Json.memberInduction with
  | other v hv =>
    intro _ name path w _ hsame
    rw [ofFreeValues_eq_ofValues, ofValues_eq_nil_iff]
    · exact Or.inr ⟨rfl, rfl, hsame⟩
    · intro ms _ hms _
      rw [Option.some.inj hms] at hv
      simp at hv
  | object ms ih =>
    intro hms name path w hw hsame
    obtain ⟨ns, rfl, hmembers⟩ := Json.exists_obj_of_same hsame
    have hmember := (Json.canonical_obj_iff.mp hms).2
    exact ofFree_eq_nil_of_values hms hw (fun m hm => ih m hm (hmember m hm))
      fun k _ => Finding.rel_present? (Json.rel_lookup_of_sameMembers hmembers k)

/-- **Free objects do not differ if what they have at reported paths is equal.** -/
theorem ofFree_eq_nil {ms ns : Table Json} (hms : (Json.obj ms).Canonical)
    (hns : (Json.obj ns).Canonical)
    (h : ∀ k, rules.reportable (Path.child path k) →
      Option.Rel (fun v w => Json.same v w = true) (present? (ms.lookup k))
        (present? (ns.lookup k))) :
    ofFree rules path ms ns = [] :=
  ofFree_eq_nil_of_values hms hns
    (fun m hm => ofFreeValues_of_same m.2 ((Json.canonical_obj_iff.mp hms).2 m hm)) h

/-- **A free object does not differ from itself.** -/
theorem ofFree_self {ms : Table Json} (hms : (Json.obj ms).Canonical) :
    ofFree rules path ms ms = [] :=
  @ofFreeValues_of_same rules (.obj ms) hms "" path (.obj ms) hms (Json.same_refl _)

/-- Equal values that are not both objects can stand for each other. -/
theorem outline_ofFreeValues_of_same {a b c : Option Json}
    (ha : ∀ ms, a ≠ some (.obj ms)) (h : Json.same? a b) :
    (ofFreeValues rules name path a c).map outline
      = (ofFreeValues rules name path b c).map outline := by
  -- what is equal to a value that is no object is no object either
  have hb : ∀ ns, b ≠ some (.obj ns) := by
    rintro ns rfl
    cases a with
    | none => simp at h
    | some v =>
      obtain ⟨ms, rfl, -⟩ := Json.exists_obj_of_same (Json.same_symm h)
      exact ha ms rfl
  have hsome : a.isSome = b.isSome := by
    cases a <;> cases b <;> simp_all
  rw [ofFreeValues_eq_ofValues fun ms _ hms _ => ha ms hms,
    ofFreeValues_eq_ofValues fun ns _ hns _ => hb ns hns]
  refine outline_ofValues_congr hsome fun _ _ => Bool.eq_iff_iff.mpr ⟨fun hac => ?_, fun hbc => ?_⟩
  · exact Json.same?_trans (Json.same?_symm h) hac
  · exact Json.same?_trans h hbc

/-- A whole object is gone or replaced, whichever object it is. -/
theorem outline_ofFreeValues_of_obj {ms ns : Table Json} {c : Option Json}
    (hc : ∀ ls, c ≠ some (.obj ls)) :
    (ofFreeValues rules name path (some (.obj ms)) c).map outline
      = (ofFreeValues rules name path (some (.obj ns)) c).map outline := by
  -- an object is equal to objects only
  have hdiffer : ∀ ms : Table Json, c.isSome → Json.same? (some (.obj ms)) c = false := by
    intro ms hsome
    obtain ⟨w, rfl⟩ := Option.isSome_iff_exists.mp hsome
    by_contra hne
    have hsame : Json.same (.obj ms) w := by simpa using hne
    obtain ⟨ls, rfl, -⟩ := Json.exists_obj_of_same hsame
    exact hc ls rfl
  rw [ofFreeValues_eq_ofValues fun _ ls _ hls => hc ls hls,
    ofFreeValues_eq_ofValues fun _ ls _ hls => hc ls hls]
  exact outline_ofValues_congr rfl fun _ hsome => by rw [hdiffer ms hsome, hdiffer ns hsome]

theorem ofFreeValues_congr (v : Json) : v.Canonical → ∀ {name path : String} {w c : Option Json},
    (∀ x ∈ w, x.Canonical) → (∀ x ∈ c, x.Canonical) →
      ofFreeValues rules name path (some v) w = [] →
        ((ofFreeValues rules name path (some v) c).map outline).Perm
          ((ofFreeValues rules name path w c).map outline) := by
  induction v using Json.memberInduction with
  | other v hv =>
    intro _ name path w c _ _ h
    have hobj : ∀ ms, some v ≠ some (Json.obj ms) := by
      intro ms hms
      rw [Option.some.inj hms] at hv
      simp at hv
    have hsame := same?_of_ofFreeValues_eq_nil (fun ms _ hms _ => hobj ms hms) h
    exact .of_eq (outline_ofFreeValues_of_same hobj hsame)
  | object ms ih =>
    intro hms name path w c hw hc h
    -- the other value is an object as well, because no other value equals an object
    obtain ⟨ns, rfl⟩ : ∃ ns, w = some (.obj ns) := by
      by_contra hno
      have hsame := same?_of_ofFreeValues_eq_nil (fun _ ns _ hns => hno ⟨ns, hns⟩) h
      cases w with
      | none => simp at hsame
      | some w =>
        obtain ⟨ns, rfl, -⟩ := Json.exists_obj_of_same hsame
        exact hno ⟨ns, rfl⟩
    -- beside an object both are walked into; beside anything else both are compared as wholes
    by_cases hobj : ∃ ls, c = some (.obj ls)
    · obtain ⟨ls, rfl⟩ := hobj
      rw [Json.canonical_obj_iff] at hms
      have hns := Json.canonical_obj_iff.mp (hw _ rfl)
      have hls := Json.canonical_obj_iff.mp (hc _ rfl)
      have hkeys : ∀ k, ofFreeSides rules path k (ms.lookup k) (ns.lookup k) = [] := by
        have hfree : ofFree rules path ms ns = [] := h
        rw [ofFree_eq_sides] at hfree
        exact (Finding.sides_eq_nil_iff ofFreeSides_none_none hms.1.nodup_keys
          hns.1.nodup_keys).mp hfree
      show ((ofFree rules path ms ls).map outline).Perm ((ofFree rules path ns ls).map outline)
      rw [ofFree_eq_sides, ofFree_eq_sides, Finding.map_sides, Finding.map_sides]
      refine Finding.sides_perm_sides (fun k => by rw [ofFreeSides_none_none]; rfl)
        hms.1.nodup_keys hns.1.nodup_keys hls.1.nodup_keys fun k => ?_
      have hk := hkeys k
      have hpresent : ∀ {t : Table Json}, (∀ m ∈ t, m.2.Canonical) →
          ∀ x ∈ present? (t.lookup k), x.Canonical :=
        fun ht x hx => ht _ (mem_of_present?_lookup hx)
      unfold ofFreeSides at hk
      rw [ofFreeSides, ofFreeSides]
      split
      · next hreport =>
        rw [if_pos hreport] at hk
        cases hv : present? (ms.lookup k) with
        | none =>
          rw [hv] at hk
          have hsame := same?_of_ofFreeValues_eq_nil (fun _ _ h _ => by simp at h) hk
          exact .of_eq (outline_ofFreeValues_of_same (by simp) hsame)
        | some v =>
          rw [hv] at hk
          have hmem := mem_of_present?_lookup hv
          exact ih _ hmem (hms.2 _ hmem) (hpresent hns.2) (hpresent hls.2) hk
      · exact .refl _
    · exact .of_eq (outline_ofFreeValues_of_obj fun ls hls => hobj ⟨ls, hls⟩)

/-- **Free objects that do not differ can stand for each other.** -/
theorem ofFree_congr {ms ns ls : Table Json} (hms : (Json.obj ms).Canonical)
    (hns : (Json.obj ns).Canonical) (hls : (Json.obj ls).Canonical)
    (h : ofFree rules path ms ns = []) :
    ((ofFree rules path ms ls).map outline).Perm ((ofFree rules path ns ls).map outline) := by
  have hw : ∀ x ∈ some (Json.obj ns), x.Canonical := fun x hx => Option.some.inj hx ▸ hns
  have hc : ∀ x ∈ some (Json.obj ls), x.Canonical := fun x hx => Option.some.inj hx ▸ hls
  exact @ofFreeValues_congr rules (.obj ms) hms "" path _ _ hw hc h

end FieldChange

end SnapshotDiff
