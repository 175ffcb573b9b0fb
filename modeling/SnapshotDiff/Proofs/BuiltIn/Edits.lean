import SnapshotDiff.Proofs.BuiltIn.Written
import SnapshotDiff.Proofs.Change.Sides
import SnapshotDiff.Proofs.Node.Exact

/-!
# Edited fields of MARC records

The fields of a record are a set, and so are the subfields of a field.  Apart from subfields that
are written alike, no edit of a field goes unnoticed.

## Main results

* `Rules.mem_members_iff` — the entity of a record has what is read of its fields, and nothing else.
* `Rules.edits_told` — **every field that one of two records has and the other has not is told.**
-/

/-- Something comes out of each item of a list, and nothing else comes out. -/
theorem List.map_eq_of_mapM_eq_some {α β : Type} {f : α → Option β} {l : List α} {bs : List β}
    (h : l.mapM f = some bs) : l.map f = bs.map some := by
  induction l generalizing bs with
  | nil =>
    obtain rfl := Option.some.inj h
    rfl
  | cons a l ih =>
    rw [List.mapM_cons] at h
    obtain ⟨c, hc, h⟩ := Option.bind_eq_some_iff.mp h
    obtain ⟨cs, hcs, h⟩ := Option.bind_eq_some_iff.mp h
    obtain rfl := Option.some.inj h
    rw [List.map_cons, List.map_cons, hc, ih hcs]

namespace SnapshotDiff

open Finding (members byKey sides)

namespace Change

/-- A record tells of a collection whose changes are among those that it is made of. -/
theorem exists_record?_of_mem {cs : List Change} {c : CollectionChange} (hc : collection c ∈ cs) :
    ∃ r, record? cs = some r ∧ c ∈ r.collections := by
  refine ⟨_, if_neg ?_, mem_filterMap_collection?.mpr hc⟩
  rw [List.isEmpty_iff]
  exact List.ne_nil_of_mem hc

end Change

namespace Rules

variable {f : Family} {s t : Option Json} {o n : Entity} {ps olds news : List Marc.Entry}

/-- The entity of a record has what is read of its fields, and nothing else. -/
theorem mem_members_iff (hmarc : f.isMarc) (h : Entity.ofSnapshot (builtIn f) s = .ok o)
    (hps : Marc.entries? s = some ps) {m : Node} :
    m ∈ members (o.root.get? "fields") ↔ ∃ p ∈ ps, m = p.node := by
  obtain ⟨hfrom, hinto⟩ := readAs_of_ofSnapshot hmarc h
  have hmap := List.map_eq_of_mapM_eq_some hps
  constructor
  · intro hm
    obtain ⟨v, hv, hread⟩ := hfrom m hm
    have hmem := List.mem_map_of_mem (f := Marc.Entry.ofJson?) hv
    rw [hmap] at hmem
    obtain ⟨p, hp, hvp⟩ := List.mem_map.mp hmem
    exact ⟨p, hp, hread.eq_node hvp.symm⟩
  · rintro ⟨p, hp, rfl⟩
    have hmem := List.mem_map_of_mem (f := some) hp
    rw [← hmap] at hmem
    obtain ⟨v, hv, hvp⟩ := List.mem_map.mp hmem
    obtain ⟨m, hm, hread⟩ := hinto v hv
    exact hread.eq_node hvp ▸ hm

theorem fits_members (hmarc : f.isMarc) (h : Entity.ofSnapshot (builtIn f) s = .ok o) :
    ∀ m ∈ members (o.root.get? "fields"), Node.Fits (fun _ => True) Marc.entry m := by
  intro m hm
  obtain ⟨v, -, hread⟩ := (readAs_of_ofSnapshot hmarc h).1 m hm
  exact hread.fits

/-- Under the key of a field there is the first one that is written like it. -/
theorem exists_alike_of_mem (hmarc : f.isMarc) (h : Entity.ofSnapshot (builtIn f) s = .ok o)
    (hps : Marc.entries? s = some ps) {p : Marc.Entry} (hp : p ∈ ps) :
    ∃ q ∈ ps, q.Alike Marc.written p
      ∧ (p.node.key, q.node) ∈ byKey (members (o.root.get? "fields")) := by
  have hmem := (mem_members_iff hmarc h hps).mpr ⟨p, hp, rfl⟩
  obtain ⟨m, hm⟩ := Option.isSome_iff_exists.mp
    (Node.isSome_lookup_byKey_iff.mpr (List.mem_map_of_mem hmem))
  have hfirst := List.mem_of_lookup_eq_some hm
  obtain ⟨hmem', hkey⟩ := Node.exists_of_mem_byKey hfirst
  obtain ⟨q, hq, rfl⟩ := (mem_members_iff hmarc h hps).mp hmem'
  have hfits := fits_members hmarc h
  exact ⟨q, hq, (Marc.Entry.key_node_eq_iff (hfits _ hmem') (hfits _ hmem)).mp hkey.symm, hfirst⟩

/-- Under the key of a field there is nothing if no field is written like it. -/
theorem lookup_byKey_eq_none (hmarc : f.isMarc) (h : Entity.ofSnapshot (builtIn f) s = .ok o)
    (hps : Marc.entries? s = some ps) {p : Marc.Entry}
    (hfits : Node.Fits (fun _ => True) Marc.entry p.node)
    (hp : ∀ q ∈ ps, ¬p.Alike Marc.written q) :
    (byKey (members (o.root.get? "fields"))).lookup p.node.key = none := by
  rw [← Option.not_isSome_iff_eq_none, Node.isSome_lookup_byKey_iff]
  intro hmem
  obtain ⟨m, hm, hkey⟩ := List.mem_map.mp hmem
  obtain ⟨q, hq, rfl⟩ := (mem_members_iff hmarc h hps).mp hm
  exact hp q hq ((Marc.Entry.key_node_eq_iff hfits (fits_members hmarc h _ hm)).mp hkey.symm)

/-- The changes of the fields of two records, if there are any, are told. -/
theorem exists_fields_change (hmarc : f.isMarc) (ho : Entity.ofSnapshot (builtIn f) s = .ok o)
    (hn : Entity.ofSnapshot (builtIn f) t = .ok n) {i : ItemChange}
    (hi : i ∈ sides (ItemChange.ofSides Node.json fun _ _ => false)
      (byKey (members (o.root.get? "fields"))) (byKey (members (n.root.get? "fields")))) :
    ∃ r, (builtIn f).diff s t = .ok (some r)
      ∧ ⟨"fields", sides (ItemChange.ofSides Node.json fun _ _ => false)
        (byKey (members (o.root.get? "fields"))) (byKey (members (n.root.get? "fields")))⟩
          ∈ r.collections := by
  generalize hitems : sides (ItemChange.ofSides Node.json fun _ _ => false)
    (byKey (members (o.root.get? "fields"))) (byKey (members (n.root.get? "fields"))) = items at *
  have hpairwise : items.Pairwise fun i j => ¬i.same j := by
    have hexact : Marc.entry.isExact := by decide
    rw [← hitems]
    exact ItemChange.pairwise_sides (Finding.nodup_keys_byKey _) (Finding.nodup_keys_byKey _)
      (Node.byKey_eq_of_same hexact (fits_members hmarc ho))
      (Node.byKey_eq_of_same hexact (fits_members hmarc hn))
  have hmem : Change.collection ⟨"fields", items⟩
      ∈ Change.ofFields (builtIn f) "" o.root n.root (builtIn f).shape.fields := by
    have hfields : ("fields", FieldShape.objects "MarcField" (FieldShape.strings
        ["tag", "ind1", "ind2", "value"] ++ [FieldShape.stringList "subfields"]) none)
          ∈ Marc.shape.fields := List.mem_cons_of_mem _ (List.mem_cons_of_mem _ List.mem_cons_self)
    have hreportable : (builtIn f).reportable (Path.child "" "fields") := by cases f <;> rfl
    rw [Change.ofFields_eq_flatMap, (root_builtIn_of_isMarc hmarc).1]
    refine List.mem_flatMap.mpr ⟨_, hfields, ?_⟩
    dsimp only
    rw [if_pos hreportable, Change.ofField, hitems, Change.ofItems,
      if_neg (by rw [List.isEmpty_iff]; exact List.ne_nil_of_mem hi),
      CollectionChange.foldl_push_eq ⟨_, []⟩ hpairwise]
    exact List.mem_singleton_self _
  obtain ⟨r, hr, hc⟩ := Change.exists_record?_of_mem hmem
  exact ⟨r, (diff_eq_ok_iff (isAddressable_builtIn f)).mpr ⟨o, n, ho, hn, hr.symm⟩, hc⟩

/-- **No edit of a field goes unnoticed.**  Take two records in the layout of MARC in JSON, in which
indicators are strings.  Every field of the old record is told to be removed unless the new one has
a field that is the same with the subfields as they are written, and so is every new field told to
be added.  Of several fields that are written alike the first one is told.

Subfields are written alike only if they are the same, or if the code of one extends that of the
other behind a space.  So of records without spaces in codes the fields are compared exactly. -/
theorem edits_told (hmarc : f.isMarc) (ho : Entity.ofSnapshot (builtIn f) s = .ok o)
    (hn : Entity.ofSnapshot (builtIn f) t = .ok n) (holds : Marc.entries? s = some olds)
    (hnews : Marc.entries? t = some news) :
    (∀ p ∈ olds, (∀ q ∈ news, ¬p.Alike Marc.written q) →
        ∃ r items, (builtIn f).diff s t = .ok (some r) ∧ ⟨"fields", items⟩ ∈ r.collections
          ∧ ∃ p' ∈ olds, p'.Alike Marc.written p ∧ ItemChange.removed p'.layout ∈ items)
      ∧ (∀ q ∈ news, (∀ p ∈ olds, ¬q.Alike Marc.written p) →
        ∃ r items, (builtIn f).diff s t = .ok (some r) ∧ ⟨"fields", items⟩ ∈ r.collections
          ∧ ∃ q' ∈ news, q'.Alike Marc.written q ∧ ItemChange.added q'.layout ∈ items)
      ∧ (∀ a b, Marc.written a = Marc.written b ↔ a = b ∨ Marc.Extends a b ∨ Marc.Extends b a)
      ∧ ∀ p q : Marc.Entry, p.HasPlainCodes → q.HasPlainCodes →
        (p.Alike Marc.written q ↔ p.Alike id q) := by
  refine ⟨fun p hp hnone => ?_, fun q hq hnone => ?_, fun a b => Marc.written_eq_iff,
    fun p q => Marc.Entry.alike_written_iff⟩
  · have hfits := fits_members hmarc ho _ ((mem_members_iff hmarc ho holds).mpr ⟨p, hp, rfl⟩)
    obtain ⟨p', hp', halike, hfirst⟩ := exists_alike_of_mem hmarc ho holds hp
    have hmem : ItemChange.removed p'.node.json
        ∈ sides (ItemChange.ofSides Node.json fun _ _ => false) _ _ :=
      ItemChange.removed_mem_sides hfirst (lookup_byKey_eq_none hmarc hn hnews hfits hnone)
    obtain ⟨r, hr, hc⟩ := exists_fields_change hmarc ho hn hmem
    exact ⟨r, _, hr, hc, p', hp', halike, p'.json_node ▸ hmem⟩
  · have hfits := fits_members hmarc hn _ ((mem_members_iff hmarc hn hnews).mpr ⟨q, hq, rfl⟩)
    obtain ⟨q', hq', halike, hfirst⟩ := exists_alike_of_mem hmarc hn hnews hq
    have hmem : ItemChange.added q'.node.json
        ∈ sides (ItemChange.ofSides Node.json fun _ _ => false) _ _ :=
      ItemChange.added_mem_sides hfirst (lookup_byKey_eq_none hmarc ho holds hfits hnone)
    obtain ⟨r, hr, hc⟩ := exists_fields_change hmarc ho hn hmem
    exact ⟨r, _, hr, hc, q', hq', halike, q'.json_node ▸ hmem⟩

/-- A record with a title in one subfield. -/
def Marc.titleIn (code text : String) : Json :=
  .obj [("fields", .arr [.obj [("245", .obj [("ind1", .str "1"), ("ind2", .str "0"),
    ("subfields", .arr [.obj [(code, .str text)]])])]]), ("leader", .str "x")]

theorem edits_told_title : ∃ r items,
    (builtIn .marcBib).diff (some (Marc.titleIn "a" "Old")) (some (Marc.titleIn "a" "New"))
        = .ok (some r)
      ∧ ⟨"fields", items⟩ ∈ r.collections
      ∧ ItemChange.removed (.obj [("ind1", .str "1"), ("ind2", .str "0"),
        ("subfields", .arr [.str "$a Old"]), ("tag", .str "245")]) ∈ items := by
  have hentries : ∀ text, Marc.entries? (some (Marc.titleIn "a" text))
      = some [.data "245" (some "1") (some "0") [("a", text)]] := fun _ => rfl
  obtain ⟨r, items, hr, hc, p, hp, -, hitem⟩ :=
    (edits_told (f := .marcBib) rfl rfl rfl (hentries "Old") (hentries "New")).1 _
      (List.mem_singleton_self _) (by simp [Marc.Entry.Alike, Marc.written])
  obtain rfl := List.mem_singleton.mp hp
  exact ⟨r, items, hr, hc, hitem⟩

/-- Where a code has a space in it, subfields that are written alike hide an edit. -/
theorem edit_untold_spaced : ∃ olds news,
    Marc.entries? (some (Marc.titleIn "a b" "c")) = some olds
      ∧ Marc.entries? (some (Marc.titleIn "a" "b c")) = some news
      ∧ (∃ p ∈ olds, ∀ q ∈ news, ¬p.Alike id q)
      ∧ Marc.written ("a b", "c") = Marc.written ("a", "b c")
      ∧ (builtIn .marcBib).diff (some (Marc.titleIn "a b" "c")) (some (Marc.titleIn "a" "b c"))
        = .ok none := by
  refine ⟨_, _, rfl, rfl, ⟨_, List.mem_singleton_self _, fun q hq h => ?_⟩, by decide, rfl⟩
  obtain rfl := List.mem_singleton.mp hq
  have hmem := (h.2.2.2 ("a b", "c")).mp (List.mem_singleton_self _)
  exact absurd hmem (by decide)

end Rules

end SnapshotDiff
