import SnapshotDiff.Proofs.BuiltIn.Wrapped
import SnapshotDiff.Proofs.Entity.Rearranged

/-!
# The fields of a MARC record

What an entity has as the fields of its record was read from the fields that its snapshot has, one
by one: each is brought into the flat layout and then read as an object.

## Main definitions

* `Marc.entriesOf` — the fields that a snapshot has.
* `Marc.ReadAs` — what is read of one of them.

## Main results

* `Marc.get?_fields_reshape` — the fields of a record in the flat layout.
* `Rules.readAs_of_ofSnapshot` — what an entity has as fields, and where each of them comes from.
-/

namespace SnapshotDiff

open Finding (members)

namespace Marc

variable {family : Family} {raw out : Table Json}

/-- The fields that a snapshot has, in its record if that is wrapped.  Those that are `null` are no
fields. -/
def entriesOf (snapshot : Option Json) : List Json :=
  match (snapshot.bind Json.members?).bind fun raw => ((wrapped? raw).getD raw).get? "fields" with
  | some (.arr vs) => vs.filter (!·.isNull)
  | _ => []

/-- The node is read from the field, at some path, once the field is in the flat layout. -/
def ReadAs (family : Family) (v : Json) (n : Node) : Prop :=
  ∃ w path, flatField v = .ok w ∧ Node.readField family path w entry = .ok n

/-! ### The flat layout of a field -/

/-- What a flat body has in front of its subfields. -/
theorem get?_front (tag : String) (data : Table Json) (name : String) :
    (Table.ofList (("tag", Json.str tag) :: kept data "ind1" ++ kept data "ind2")).get? name
      = if name = "tag" then some (.str tag)
        else if name = "ind1" ∨ name = "ind2" then data.get? name else none := by
  have hkept : ∀ key (t : Table Json), ((kept data key).foldl (fun t e => t.insert e.1 e.2) t).get?
      name = if name = key then (data.get? key).or (t.get? name) else t.get? name := by
    intro key t
    unfold kept
    cases hget : data.get? key with
    | none => simp
    | some v =>
      rw [Option.map_some, Option.toList_some, List.foldl_cons, List.foldl_nil, Table.get?_insert]
      simp [eq_comm]
  rw [Table.ofList, List.cons_append, List.foldl_cons, List.foldl_append, hkept, hkept]
  by_cases htag : name = "tag"
  · subst htag
    simp [Table.insert]
  · have hnone : (Table.insert [] "tag" (Json.str tag)).get? name = none := by
      simp [Table.insert, Ne.symm htag]
    rw [hnone, if_neg htag]
    by_cases hfirst : name = "ind1"
    · subst hfirst
      simp
    · by_cases hsecond : name = "ind2"
      · subst hsecond
        simp
      · simp [hfirst, hsecond]

/-- A body that is an object is made of its indicators and its subfields. -/
theorem exists_of_flatBody {tag : String} {data : Table Json} {w : Json}
    (h : flatBody tag (.obj data) = .ok w) : ∃ (ms : Table Json) (subfields : List Json),
      w = .obj ms ∧ flatSubfields (data.get? "subfields") = .ok subfields
      ∧ ms.get? "tag" = some (.str tag)
      ∧ ms.get? "ind1" = data.get? "ind1" ∧ ms.get? "ind2" = data.get? "ind2"
      ∧ ms.get? "subfields" = some (.arr subfields) ∧ ms.get? "value" = none := by
  obtain ⟨subfields, hsub, rfl⟩ := flatBody_eq_ok.mp h
  refine ⟨_, subfields, rfl, hsub, ?_⟩
  simp only [Table.get?_insert, get?_front]
  simp

/-! ### The fields of a record -/

/-- **The fields of a record in the flat layout** are its fields, each in the flat layout.  Whatever
else the record has in their place is left as it is. -/
theorem get?_fields_reshape (h : reshape family raw = .ok out) :
    (∃ vs ws, ((wrapped? raw).getD raw).get? "fields" = some (.arr vs)
        ∧ (vs.filter (!·.isNull)).mapM flatField = .ok ws ∧ out.get? "fields" = some (.arr ws))
      ∨ (∀ vs, ((wrapped? raw).getD raw).get? "fields" ≠ some (.arr vs))
        ∧ out.get? "fields" = ((wrapped? raw).getD raw).get? "fields" := by
  obtain ⟨-, -, h⟩ := Except.bind_eq_ok.mp h
  obtain ⟨members, hmembers, h⟩ := Except.bind_eq_ok.mp h
  rw [← eq_of_content hmembers]
  dsimp only at h
  split at h
  · next vs hvs =>
    obtain ⟨ws, hws, h⟩ := Except.bind_eq_ok.mp h
    refine Or.inl ⟨vs, ws, hvs, flatFields_eq_ok.mp hws, ?_⟩
    rw [← Except.ok.inj h, Table.get?_insert, if_pos rfl]
  · next v hnot hv =>
    refine Or.inr ⟨fun vs hvs => hnot vs (Option.some.inj (hv.symm.trans hvs)), ?_⟩
    rw [← Except.ok.inj h, Table.get?_insert, if_pos rfl, hv]
  · next hnone =>
    refine Or.inr ⟨fun vs hvs => absurd (hnone.symm.trans hvs) (by simp), ?_⟩
    rw [← Except.ok.inj h, hnone]
    -- what was there has been dropped, and the type goes under another name
    split
    · rw [Table.get?_insert, if_neg (by decide), Table.get?_erase, if_pos rfl]
    · rw [Table.get?_erase, if_pos rfl]

end Marc

namespace Rules

variable {f : Family} {snapshot : Option Json} {e : Entity}

/-- **What an entity has as fields** was read from the fields of its snapshot, and of each of these
something was read. -/
theorem readAs_of_ofSnapshot (hmarc : f.isMarc)
    (h : Entity.ofSnapshot (builtIn f) snapshot = .ok e) :
    (∀ n ∈ members (e.root.get? "fields"), ∃ v ∈ Marc.entriesOf snapshot, Marc.ReadAs f v n)
      ∧ ∀ v ∈ Marc.entriesOf snapshot, ∃ n ∈ members (e.root.get? "fields"), Marc.ReadAs f v n := by
  obtain ⟨hshape, hdefaults⟩ := root_builtIn_of_isMarc hmarc
  obtain ⟨root, hroot, rfl⟩ := Entity.ofSnapshot_eq_ok.mp h
  rw [hdefaults, List.foldl_nil]
  rcases Entity.readRoot_eq_ok.mp hroot with ⟨habsent, rfl⟩ | ⟨raw, out, rfl, hout, -, hread⟩
  · have hnone : Marc.entriesOf snapshot = [] := by
      rcases habsent with rfl | rfl <;> rfl
    rw [hnone]
    exact ⟨fun n hn => absurd hn List.not_mem_nil, fun v hv => absurd hv List.not_mem_nil⟩
  rw [reshaped_builtIn, if_pos hmarc] at hout
  rw [hshape, family_builtIn] at hread
  have hfields : ("fields", FieldShape.objects "MarcField" (FieldShape.strings
      ["tag", "ind1", "ind2", "value"] ++ [FieldShape.stringList "subfields"]) none)
        ∈ Marc.shape.fields := List.mem_cons_of_mem _ (List.mem_cons_of_mem _ List.mem_cons_self)
  obtain ⟨-, hother, hpresent⟩ := Node.readFields_spec (by decide) hread List.Pairwise.nil
  have hentries : Marc.entriesOf (some (.obj raw))
      = match ((Marc.wrapped? raw).getD raw).get? "fields" with
        | some (.arr vs) => vs.filter (!·.isNull)
        | _ => [] := rfl
  rcases Marc.get?_fields_reshape hout with ⟨vs, ws, hvs, hws, hget⟩ | ⟨hnot, hget⟩
  · obtain ⟨n, hn, hroot⟩ := hpresent _ _ _ hfields ⟨hget, by simp⟩
    obtain ⟨_, ns, heq, hns, rfl⟩ := (Node.readField_collection_eq_ok rfl).mp hn
    obtain rfl := Json.arr.inj heq
    rw [hvs] at hentries
    rw [hroot, hentries]
    refine ⟨fun n hn => ?_, fun v hv => ?_⟩
    · obtain ⟨w, hw, -, p, hwn⟩ := Node.exists_item_of_ofItems hns n hn
      obtain ⟨v, hv, hvw⟩ := (List.mem_of_mapM_eq_ok hws w).mp hw
      exact ⟨v, hv, w, p, hvw, hwn⟩
    · obtain ⟨w, hvw⟩ := List.exists_mapM_eq_ok_iff.mp ⟨ws, hws⟩ v hv
      have hw := (List.mem_of_mapM_eq_ok hws w).mpr ⟨v, hv, hvw⟩
      obtain ⟨n, hn, p, hwn⟩ :=
        Node.exists_member_of_ofItems hns w hw (Marc.ne_null_of_flatField hvw)
      exact ⟨n, hn, w, p, hvw, hwn⟩
  · -- in place of fields the record has nothing, for anything but an array would be refused
    have hempty : Marc.entriesOf (some (.obj raw)) = [] := by
      rw [hentries]
      split
      · next vs hvs => exact absurd hvs (hnot vs)
      · rfl
    have hnone : root.get? "fields" = none := by
      refine hother _ fun s v hs hv => ?_
      obtain rfl := List.eq_of_nodup_keys (by decide) hs hfields
      obtain ⟨n, hn, -⟩ := hpresent _ _ _ hfields hv
      obtain ⟨vs, -, rfl, -, -⟩ := (Node.readField_collection_eq_ok rfl).mp hn
      exact hnot vs (hget ▸ hv.1)
    rw [hempty, hnone]
    exact ⟨fun n hn => absurd hn List.not_mem_nil, fun v hv => absurd hv List.not_mem_nil⟩

end Rules

end SnapshotDiff
