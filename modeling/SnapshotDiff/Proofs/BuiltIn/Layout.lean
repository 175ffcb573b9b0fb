import SnapshotDiff.BuiltIn
import SnapshotDiff.Proofs.Entity.Reading

/-!
# Built-in rules keep values canonical

Of the built-in rules only those for MARC records rearrange a snapshot.  What they make of a
canonical snapshot is canonical: the objects they build are tables, and everything else is taken
over.

## Main results

* `Marc.canonical_reshape` — the flat layout of a canonical record is canonical.
* `Rules.preserves_builtIn` — the built-in rules keep snapshots canonical.
-/

namespace SnapshotDiff

open Json

namespace Marc

variable {family : Family}

theorem canonical_flatSubfields {v : Option Json} {vs : List Json}
    (h : flatSubfields v = .ok vs) : ∀ w ∈ vs, Canonical w := by
  rw [flatSubfields.eq_def] at h
  split at h
  · obtain rfl := Except.ok.inj h
    simp
  · obtain rfl := Except.ok.inj h
    simp
  · next ws =>
    induction ws generalizing vs with
    | nil =>
      obtain rfl := Except.ok.inj h
      simp
    | cons w ws ih =>
      rw [List.mapM_cons] at h
      obtain ⟨u, hu, h⟩ := Except.bind_eq_ok.mp h
      obtain ⟨us, hus, h⟩ := Except.bind_eq_ok.mp h
      obtain rfl := Except.ok.inj h
      refine List.forall_mem_cons.mpr ⟨?_, ih hus⟩
      rw [flatSubfield.eq_def] at hu
      split at hu
      · obtain rfl := Except.ok.inj hu
        exact trivial
      · simp at hu
  · simp at h

theorem canonical_kept {data : Table Json} (h : Canonical (.obj data)) {name : String} :
    ∀ m ∈ kept data name, Canonical m.2 := by
  intro m hm
  rw [kept, Option.mem_toList, Option.map_eq_some_iff] at hm
  obtain ⟨v, hv, rfl⟩ := hm
  exact hereditary_canonical.member h hv

theorem canonical_flatBody {tag : String} {body v : Json} (hbody : Canonical body)
    (h : flatBody tag body = .ok v) : Canonical v := by
  rw [flatBody.eq_def] at h
  split at h
  · obtain rfl := Except.ok.inj h
    exact canonical_ofList (by simp [Canonical])
  · next data =>
    obtain ⟨subfields, hsub, h⟩ := Except.bind_eq_ok.mp h
    obtain rfl := Except.ok.inj h
    refine canonical_ofList fun m hm => ?_
    -- the members are the tag, the indicators and the subfields
    simp only [List.cons_append, List.mem_cons, List.mem_append, List.not_mem_nil, or_false] at hm
    rcases hm with rfl | (hm | hm) | rfl
    · exact trivial
    · exact canonical_kept hbody m hm
    · exact canonical_kept hbody m hm
    · exact canonical_arr_iff.mpr (canonical_flatSubfields hsub)
  · simp at h

theorem canonical_flatField {v w : Json} (hv : Canonical v) (h : flatField v = .ok w) :
    Canonical w := by
  rw [flatField.eq_def] at h
  split at h
  · next members =>
    split at h
    · obtain rfl := Except.ok.inj h
      exact hv
    · split at h
      · next tag body _ =>
        have hbody := (canonical_obj_iff.mp hv).2 (tag, body) (List.mem_singleton_self _)
        exact canonical_flatBody hbody h
      · simp at h
  · simp at h

theorem canonical_flatFields {vs ws : List Json} {i : Nat} (hvs : ∀ v ∈ vs, Canonical v)
    (h : flatFields family i vs = .ok ws) : ∀ w ∈ ws, Canonical w := by
  induction vs generalizing i ws with
  | nil =>
    rw [flatFields] at h
    obtain rfl := Except.ok.inj h
    simp
  | cons v vs ih =>
    obtain ⟨hv, htail⟩ := List.forall_mem_cons.mp hvs
    by_cases hnull : v = .null
    · rw [hnull, flatFields] at h
      exact ih htail h
    · rw [flatFields] at h
      · split at h
        · simp at h
        · next w hw =>
          obtain ⟨us, hus, rfl⟩ := map_eq_ok h
          exact List.forall_mem_cons.mpr ⟨canonical_flatField hv hw, ih htail hus⟩
      · exact hnull
where
  map_eq_ok {x : Except DiffError (List Json)} {f : List Json → List Json} {b : List Json}
      (h : x.map f = .ok b) : ∃ a, x = .ok a ∧ f a = b := by
    cases x with
    | error e => simp [Except.map] at h
    | ok a => exact ⟨a, rfl, Except.ok.inj h⟩

theorem canonical_content {raw members : Table Json} (hraw : Canonical (.obj raw))
    (h : content family raw = .ok members) : Canonical (.obj members) := by
  unfold content at h
  split at h
  · exact Except.ok.inj h ▸ hraw
  · exact Except.ok.inj h ▸ hraw
  · next parsed _ hparsed =>
    split at h
    · next inner hinner =>
      obtain rfl := Except.ok.inj h
      obtain ⟨c, hc, hobj⟩ := Option.bind_eq_some_iff.mp hinner
      obtain ⟨ms, hms, hget⟩ := Option.bind_eq_some_iff.mp hc
      have hparsed := hereditary_canonical.member hraw hparsed
      cases parsed <;> simp only [members?, reduceCtorEq, Option.some.injEq] at hms
      cases c <;> simp only [members?, reduceCtorEq, Option.some.injEq] at hobj
      exact hobj ▸ hereditary_canonical.member hparsed (hms ▸ hget)
    · simp at h

/-- **The flat layout of a canonical record is canonical.** -/
theorem canonical_reshape {raw out : Table Json} (hraw : Canonical (.obj raw))
    (h : reshape family raw = .ok out) : Canonical (.obj out) := by
  obtain ⟨-, -, h⟩ := Except.bind_eq_ok.mp h
  obtain ⟨members, hmembers, h⟩ := Except.bind_eq_ok.mp h
  have hcontent := canonical_content hraw hmembers
  -- members of the content are canonical, and so is what is left when fields are dropped or added
  have hmember : ∀ {key v}, members.get? key = some v → Canonical v :=
    fun hv => hereditary_canonical.member hcontent hv
  extract_lets typed at h
  have htyped : Canonical (.obj typed) := by
    unfold typed
    split
    · next v hv => exact (hcontent.erase _).insert _ (hereditary_canonical.member hraw hv)
    · exact hcontent.erase _
  split at h
  · next vs hvs =>
    obtain ⟨ws, hws, h⟩ := Except.bind_eq_ok.mp h
    obtain rfl := Except.ok.inj h
    have hflat := canonical_flatFields (canonical_arr_iff.mp (hmember hvs)) hws
    exact htyped.insert _ (canonical_arr_iff.mpr hflat)
  · next v _ hv =>
    obtain rfl := Except.ok.inj h
    exact htyped.insert _ (hmember hv)
  · obtain rfl := Except.ok.inj h
    exact htyped

end Marc

namespace Rules

/-- **The built-in rules keep snapshots canonical.** -/
theorem preserves_builtIn (f : Family) : (builtIn f).Preserves Canonical := by
  have hmarc : ∀ family, (Marc.rules family).Preserves Canonical :=
    fun family ms out hms hout => Marc.canonical_reshape hms hout
  cases f with
  | marcBib => exact hmarc _
  | marcAuthority => exact hmarc _
  | item | holdings | inventoryInstance | user => exact preserves_of_reshape?_eq_none rfl _

/-- The built-in shapes have plain names. -/
theorem isPlain_builtIn (f : Family) : (builtIn f).shape.isPlain := by
  cases f <;> decide +kernel

theorem isAddressable_builtIn (f : Family) : (builtIn f).shape.isAddressable :=
  Shape.isAddressable_of_isPlain (isPlain_builtIn f)

end Rules

end SnapshotDiff
