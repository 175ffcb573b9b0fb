import SnapshotDiff.Proofs.BuiltIn.Entries
import SnapshotDiff.Proofs.Entity.Rendered
import SnapshotDiff.Proofs.Node.Keys

/-!
# Fields of MARC records as they are written

A field is a control field or a data field with subfields.  A subfield is written as one text, the
code in front, and what is compared is how subfields are written.  Two subfields can be written
alike: then the code of one is that of the other with a space and more behind it.  Apart from this,
fields have one key only if they are the same, where subfields are a set.

## Main definitions

* `Marc.Entry` — a control field or a data field.
* `Marc.entries?` — the fields of a record in the layout of MARC in JSON.
* `Marc.written` — how a subfield is written.
* `Marc.Entry.Alike` — fields that are the same in a view of their subfields.

## Main results

* `Marc.written_eq_iff` — **which subfields are written alike.**
* `Marc.ReadAs.eq_node` — what is read of a field.
* `Marc.Entry.key_node_eq_iff` — fields have one key if they are the same with subfields as written.
-/

namespace SnapshotDiff

namespace Marc

/-! ### Fields -/

/-- A field of a record. -/
inductive Entry
  | control (tag text : String)
  | data (tag : String) (ind1 ind2 : Option String) (subfields : List (String × String))

/-- The text under a name, where `null` counts as absent. -/
def textIn? (ms : Table Json) (name : String) : Option (Option String) :=
  match ms.get? name with
  | none | some .null => some none
  | some (.str s) => some (some s)
  | some _ => none

theorem textIn?_some {ms : Table Json} {name s : String} (h : ms.get? name = some (.str s)) :
    textIn? ms name = some (some s) := by rw [textIn?, h]

theorem textIn?_none {ms : Table Json} {name : String} (h : ms.get? name = none) :
    textIn? ms name = some none := by rw [textIn?, h]

theorem textIn?_congr {ms ns : Table Json} {name : String} (h : ms.get? name = ns.get? name) :
    textIn? ms name = textIn? ns name := by rw [textIn?, textIn?, h]

/-- A subfield: its code and its text. -/
def subfield? : Json → Option (String × String)
  | .obj [(code, .str text)] => some (code, text)
  | _ => none

/-- The subfields of a field. -/
def subfields? : Option Json → Option (List (String × String))
  | none | some .null => some []
  | some (.arr vs) => vs.mapM subfield?
  | some _ => none

namespace Entry

/-- A field whose one key is its tag. -/
def ofJson? : Json → Option Entry
  | .obj [(tag, .str text)] => if tag = "tag" then none else some (control tag text)
  | .obj [(tag, .obj body)] =>
    if tag = "tag" then none
    else do
      return data tag (← textIn? body "ind1") (← textIn? body "ind2")
        (← subfields? (Table.get? body "subfields"))
  | _ => none

/-- The fields are the same, with their subfields seen in some way.  Subfields are a set. -/
def Alike {α : Type} (view : String × String → α) : Entry → Entry → Prop
  | control tag text, control tag' text' => tag = tag' ∧ text = text'
  | data tag ind1 ind2 subfields, data tag' ind1' ind2' subfields' =>
    tag = tag' ∧ ind1 = ind1' ∧ ind2 = ind2'
      ∧ ∀ a, a ∈ subfields.map view ↔ a ∈ subfields'.map view
  | _, _ => False

end Entry

/-- The fields of the record of a snapshot, in the layout of MARC in JSON. -/
def entries? (snapshot : Option Json) : Option (List Entry) :=
  (entriesOf snapshot).mapM Entry.ofJson?

/-! ### Subfields -/

/-- How a subfield is written. -/
def written (s : String × String) : String := "$" ++ s.1 ++ " " ++ s.2

/-- The second code is the first one with a space and more behind it, and this begins the first
text. -/
def Extends (a b : String × String) : Prop :=
  ∃ more, b.1 = a.1 ++ " " ++ more ∧ a.2 = more ++ " " ++ b.2

theorem written_eq_of_extends {a b : String × String} (h : Extends a b) :
    written a = written b := by
  obtain ⟨more, hcode, htext⟩ := h
  rw [written, written, hcode, htext]
  simp only [String.append_assoc]

/-- **Two subfields are written alike only if the code of one extends that of the other.** -/
theorem written_eq_iff {a b : String × String} :
    written a = written b ↔ a = b ∨ Extends a b ∨ Extends b a := by
  -- the longer code has the shorter one in front, and then a space
  have hextends : ∀ {c d x y : String} {more : List Char}, d.toList = c.toList ++ more →
      ' ' :: x.toList = more ++ ' ' :: y.toList → (c, x) = (d, y) ∨ Extends (c, x) (d, y) := by
    intro c d x y more hcode htext
    cases more with
    | nil =>
      rw [List.append_nil] at hcode
      rw [String.toList_inj.mp hcode, String.toList_inj.mp (List.cons.inj htext).2]
      exact Or.inl rfl
    | cons first more =>
      obtain ⟨rfl, hrest⟩ := List.cons.inj htext
      refine Or.inr ⟨String.ofList more, String.toList_inj.mp ?_, String.toList_inj.mp ?_⟩
      · simp [hcode]
      · simpa using hrest
  constructor
  · intro h
    have hlist := congrArg String.toList h
    simp only [written, String.toList_append, List.append_assoc] at hlist
    rcases List.append_eq_append_iff.mp (List.append_cancel_left hlist) with
      ⟨more, hcode, htext⟩ | ⟨more, hcode, htext⟩
    · rcases hextends hcode htext with heq | hext
      · exact Or.inl heq
      · exact Or.inr (Or.inl hext)
    · rcases hextends hcode htext with heq | hext
      · exact Or.inl heq.symm
      · exact Or.inr (Or.inr hext)
  · rintro (rfl | h | h)
    · rfl
    · exact written_eq_of_extends h
    · exact (written_eq_of_extends h).symm

/-! ### Nodes -/

/-- A text as a leaf. -/
def leafOf (s : String) : Node := .leaf (.str s) (Json.str s).text

theorem key_leafOf_inj {s t : String} (h : (leafOf s).key = (leafOf t).key) : s = t :=
  Json.str.inj (Json.text_inj h)

namespace Entry

/-- What is read of a field, name by name. -/
def fields : Entry → Table Node
  | control tag text => [("tag", leafOf tag), ("value", leafOf text)]
  | data tag ind1 ind2 subfields =>
    (ind1.map fun s => ("ind1", leafOf s)).toList ++ (ind2.map fun s => ("ind2", leafOf s)).toList
      ++ [("subfields", .collection ((subfields.map written).map leafOf)),
        ("tag", leafOf tag)]

/-- What is read of a field. -/
def node (p : Entry) : Node := .object p.fields

/-- The value that a field is told with. -/
def layout : Entry → Json
  | control tag text => .obj [("tag", .str tag), ("value", .str text)]
  | data tag ind1 ind2 subfields =>
    .obj ((ind1.map fun s => ("ind1", .str s)).toList ++ (ind2.map fun s => ("ind2", .str s)).toList
      ++ [("subfields", .arr (subfields.map fun s => .str (written s))), ("tag", .str tag)])

theorem json_node (p : Entry) : p.node.json = p.layout := by
  cases p with
  | control tag text => rfl
  | data tag ind1 ind2 subfields =>
    rw [node, Node.json, fields, layout, Node.fieldValues_eq_map, List.map_append, List.map_append]
    cases ind1 <;> cases ind2 <;> simp [Node.json, leafOf]

/-- The fields of a data field. -/
theorem get?_fields_data (tag : String) (ind1 ind2 : Option String)
    (subfields : List (String × String)) (name : String) :
    (data tag ind1 ind2 subfields).fields.get? name
      = if name = "tag" then some (leafOf tag)
        else if name = "ind1" then ind1.map leafOf
        else if name = "ind2" then ind2.map leafOf
        else if name = "subfields" then
          some (.collection ((subfields.map written).map leafOf))
        else none := by
  by_cases htag : name = "tag"
  · subst htag
    cases ind1 <;> cases ind2 <;> simp [fields]
  · by_cases hfirst : name = "ind1"
    · subst hfirst
      cases ind1 <;> cases ind2 <;> simp [fields]
    · by_cases hsecond : name = "ind2"
      · subst hsecond
        cases ind1 <;> cases ind2 <;> simp [fields]
      · cases ind1 <;> cases ind2 <;> simp [fields, htag, hfirst, hsecond, eq_comm]

end Entry

/-! ### Reading -/

section Reading

variable {family : Family} {path name : String} {ms : Table Json} {v : Json} {n : Node} {p : Entry}

/-- The fields with one more, if it is there. -/
def withText (name : String) (t : Option String) (done : Table Node) : Table Node :=
  t.elim done fun s => done.insert name (leafOf s)

/-- A text is read as a leaf, if it is there. -/
theorem readFields_text {t : Option String} (h : textIn? ms name = some t) (done : Table Node)
    (rest : List (String × FieldShape)) :
    Node.readFields family path ms done ((name, .leaf .string) :: rest)
      = Node.readFields family path ms (withText name t done) rest := by
  unfold textIn? at h
  split at h
  · next hget =>
    obtain rfl := Option.some.inj h
    rw [Node.readFields, hget]
    rfl
  · next hget =>
    obtain rfl := Option.some.inj h
    rw [Node.readFields, hget]
    rfl
  · next s hget =>
    obtain rfl := Option.some.inj h
    rw [Node.readFields, hget]
    rfl
  · exact absurd h (by simp)

/-- The texts of a field are read first, and then its subfields. -/
theorem readFields_entry {tag ind1 ind2 value : Option String} (htag : textIn? ms "tag" = some tag)
    (hind1 : textIn? ms "ind1" = some ind1) (hind2 : textIn? ms "ind2" = some ind2)
    (hvalue : textIn? ms "value" = some value) :
    Node.readFields family path ms [] (FieldShape.strings ["tag", "ind1", "ind2", "value"]
        ++ [FieldShape.stringList "subfields"])
      = Node.readFields family path ms (withText "value" value
          (withText "ind2" ind2 (withText "ind1" ind1 (withText "tag" tag []))))
            [("subfields", .leaves .string)] := by
  have hfields : FieldShape.strings ["tag", "ind1", "ind2", "value"]
      ++ [FieldShape.stringList "subfields"] = [("tag", .leaf .string), ("ind1", .leaf .string),
        ("ind2", .leaf .string), ("value", .leaf .string), ("subfields", .leaves .string)] := rfl
  rw [hfields, readFields_text htag, readFields_text hind1, readFields_text hind2,
    readFields_text hvalue]

/-- Subfields are written one by one. -/
theorem flatSubfields_of_subfields? {v? : Option Json} {subfields : List (String × String)}
    (h : subfields? v? = some subfields) :
    flatSubfields v? = .ok (subfields.map fun s => .str (written s)) := by
  unfold subfields? at h
  split at h
  · obtain rfl := Option.some.inj h
    rfl
  · obtain rfl := Option.some.inj h
    rfl
  · next vs =>
    rw [flatSubfields]
    induction vs generalizing subfields with
    | nil =>
      obtain rfl := Option.some.inj h
      rfl
    | cons v vs ih =>
      rw [List.mapM_cons] at h
      obtain ⟨s, hs, h⟩ := Option.bind_eq_some_iff.mp h
      obtain ⟨rest, hrest, h⟩ := Option.bind_eq_some_iff.mp h
      obtain rfl := Option.some.inj h
      refine List.mapM_cons_eq_ok.mpr ⟨_, _, ?_, ih hrest, rfl⟩
      unfold subfield? at hs
      split at hs
      · obtain rfl := Option.some.inj hs
        rfl
      · exact absurd hs (by simp)
  · exact absurd h (by simp)

/-- Texts are read as leaves. -/
theorem readField_texts (ss : List String) :
    Node.readField family path (.arr (ss.map Json.str)) (.leaves .string)
      = .ok (.collection (ss.map leafOf)) := by
  refine (Node.readField_collection_eq_ok rfl).mpr ⟨_, _, rfl, ?_, rfl⟩
  have hvalues : ss.map Json.str = (ss.map leafOf).map Node.json := by
    rw [List.map_map]
    rfl
  rw [hvalues]
  refine Node.ofItems_map_json (fun n hn => ?_) 0
  obtain ⟨s, -, rfl⟩ := List.mem_map.mp hn
  exact ⟨by simp [leafOf, Node.json], fun p => rfl⟩

/-- A control field in the flat layout is read with its tag and its text. -/
theorem readFields_control (tag text : String) :
    Node.readFields family path (Table.ofList [("tag", Json.str tag), ("value", .str text)]) []
        (FieldShape.strings ["tag", "ind1", "ind2", "value"] ++ [FieldShape.stringList "subfields"])
      = .ok (Entry.control tag text).fields := by
  have hget : ∀ name, (Table.ofList [("tag", Json.str tag), ("value", .str text)]).get? name
      = if name = "value" then some (.str text) else if name = "tag" then some (.str tag)
        else none := by
    intro name
    simp [Table.ofList, Table.get?_insert, eq_comm]
  rw [readFields_entry (textIn?_some (hget "tag")) (textIn?_none (hget "ind1"))
    (textIn?_none (hget "ind2")) (textIn?_some (hget "value")), Node.readFields,
    hget "subfields", if_neg (by decide), if_neg (by decide)]
  rfl

/-- A data field in the flat layout is read with its subfields as they are written. -/
theorem readFields_data {tag : String} {ind1 ind2 : Option String}
    {subfields : List (String × String)} (htag : ms.get? "tag" = some (.str tag))
    (hind1 : textIn? ms "ind1" = some ind1) (hind2 : textIn? ms "ind2" = some ind2)
    (hsub : ms.get? "subfields" = some (.arr (subfields.map fun s => .str (written s))))
    (hvalue : ms.get? "value" = none) :
    Node.readFields family path ms []
        (FieldShape.strings ["tag", "ind1", "ind2", "value"] ++ [FieldShape.stringList "subfields"])
      = .ok (Entry.data tag ind1 ind2 subfields).fields := by
  have hmap : subfields.map (fun s => Json.str (written s)) = (subfields.map written).map .str := by
    rw [List.map_map]
    rfl
  rw [readFields_entry (textIn?_some htag) hind1 hind2 (textIn?_none hvalue), Node.readFields, hsub,
    hmap]
  refine Except.bind_eq_ok.mpr ⟨_, readField_texts _, ?_⟩
  cases ind1 <;> cases ind2 <;> rfl

/-- **What is read of a field** in the layout of MARC in JSON. -/
theorem ReadAs.eq_node (h : ReadAs family v n) (hp : Entry.ofJson? v = some p) : n = p.node := by
  obtain ⟨w, path, hw, hn⟩ := h
  unfold Entry.ofJson? at hp
  split at hp
  · next tag text =>
    split at hp
    · exact absurd hp (by simp)
    · next htag =>
      obtain rfl := Option.some.inj hp
      rw [flatField_of_ne htag] at hw
      obtain rfl := Except.ok.inj hw
      obtain ⟨_, fs, hms, hfs, rfl⟩ := Node.readField_object_eq_ok.mp hn
      obtain rfl := Json.obj.inj hms
      obtain rfl := Except.ok.inj (hfs.symm.trans (readFields_control tag text))
      rfl
  · next tag body =>
    split at hp
    · exact absurd hp (by simp)
    · next htag =>
      obtain ⟨ind1, hind1, hp⟩ := Option.bind_eq_some_iff.mp hp
      obtain ⟨ind2, hind2, hp⟩ := Option.bind_eq_some_iff.mp hp
      obtain ⟨subfields, hsubfields, hp⟩ := Option.bind_eq_some_iff.mp hp
      obtain rfl := Option.some.inj hp
      rw [flatField_of_ne htag] at hw
      obtain ⟨ms, flat, rfl, hflat, htagged, hfirst, hsecond, hsub, hvalue⟩ := exists_of_flatBody hw
      rw [flatSubfields_of_subfields? hsubfields] at hflat
      obtain rfl := Except.ok.inj hflat
      obtain ⟨_, fs, hms, hfs, rfl⟩ := Node.readField_object_eq_ok.mp hn
      obtain rfl := Json.obj.inj hms
      obtain rfl := Except.ok.inj (hfs.symm.trans (readFields_data htagged
        ((textIn?_congr hfirst).trans hind1) ((textIn?_congr hsecond).trans hind2) hsub hvalue))
      rfl
  · exact absurd hp (by simp)

end Reading

/-! ### Keys -/

/-- What is read of a field fits its declaration. -/
theorem ReadAs.fits {family : Family} {v : Json} {n : Node} (h : ReadAs family v n) :
    Node.Fits (fun _ => True) entry n := by
  obtain ⟨w, path, -, hn⟩ := h
  exact Node.fits_readField Json.hereditary_true (by decide) trivial hn

theorem key_texts_eq_iff (ss ts : List String) :
    (Node.collection (ss.map leafOf)).key = (Node.collection (ts.map leafOf)).key
      ↔ ∀ s, s ∈ ss ↔ s ∈ ts := by
  have hfits : ∀ {ss : List String}, ∀ n ∈ ss.map leafOf,
      Node.Fits (fun _ => True) (.leaf .string) n := by
    intro ss n hn
    obtain ⟨s, -, rfl⟩ := List.mem_map.mp hn
    exact .leaf rfl
  have hmem : ∀ (ss : List String) (s : String),
      (leafOf s).key ∈ (ss.map leafOf).map Node.key ↔ s ∈ ss := by
    intro ss s
    simp only [List.mem_map, exists_exists_and_eq_and]
    constructor
    · rintro ⟨t, ht, hkey⟩
      exact key_leafOf_inj hkey ▸ ht
    · exact fun hs => ⟨s, hs, rfl⟩
  rw [Node.key_collection_eq_iff rfl hfits hfits]
  constructor
  · intro h s
    rw [← hmem ss, ← hmem ts]
    exact h _
  · intro h k
    simp only [List.mem_map, exists_exists_and_eq_and, h]

namespace Entry

/-- **Fields have one key exactly if they are the same with their subfields as written.** -/
theorem key_node_eq_iff {p q : Entry} (hp : Node.Fits (fun _ => True) entry p.node)
    (hq : Node.Fits (fun _ => True) entry q.node) :
    p.node.key = q.node.key ↔ p.Alike written q := by
  have hleaf : ∀ {s t : Option String}, (s.map leafOf).map Node.key = (t.map leafOf).map Node.key →
      s = t := by
    intro s t h
    cases s <;> cases t <;> simp only [Option.map_some, Option.map_none, Option.some.injEq,
      reduceCtorEq] at h
    · rfl
    · rw [key_leafOf_inj h]
  rw [node, node, Node.key_object_eq_iff (by decide) hp hq]
  cases p with
  | control tag text =>
    cases q with
    | control tag' text' =>
      constructor
      · intro h
        exact ⟨key_leafOf_inj (Option.some.inj (h "tag")),
          key_leafOf_inj (Option.some.inj (h "value"))⟩
      · rintro ⟨rfl, rfl⟩
        exact fun _ => rfl
    | data tag' ind1' ind2' subfields' =>
      refine iff_of_false (fun h => ?_) id
      have htext := h "value"
      rw [get?_fields_data] at htext
      exact absurd htext (by simp [fields])
  | data tag ind1 ind2 subfields =>
    cases q with
    | control tag' text' =>
      refine iff_of_false (fun h => ?_) id
      have htext := h "value"
      rw [get?_fields_data] at htext
      exact absurd htext (by simp [fields])
    | data tag' ind1' ind2' subfields' =>
      simp only [get?_fields_data]
      constructor
      · intro h
        refine ⟨key_leafOf_inj (Option.some.inj (h "tag")), hleaf (h "ind1"), hleaf (h "ind2"), ?_⟩
        exact (key_texts_eq_iff _ _).mp (Option.some.inj (h "subfields"))
      · rintro ⟨rfl, rfl, rfl, hsubfields⟩ name
        have hkey := (key_texts_eq_iff _ _).mpr hsubfields
        split_ifs
        · rfl
        · rfl
        · rfl
        · exact congrArg some hkey
        · rfl

/-- No code of a subfield has a space in it. -/
def HasPlainCodes : Entry → Prop
  | control _ _ => True
  | data _ _ _ subfields => ∀ s ∈ subfields, ' ' ∉ s.1.toList

/-- Where no code has a space in it, subfields are the same if they are written alike. -/
theorem alike_written_iff {p q : Entry} (hp : p.HasPlainCodes) (hq : q.HasPlainCodes) :
    p.Alike written q ↔ p.Alike id q := by
  cases p with
  | control => cases q <;> rfl
  | data tag ind1 ind2 ss =>
    cases q with
    | control => rfl
    | data tag' ind1' ind2' ts =>
      have hinj : ∀ {a b : String × String}, ' ' ∉ a.1.toList → ' ' ∉ b.1.toList →
          written a = written b → a = b := by
        intro a b ha hb h
        rcases written_eq_iff.mp h with h | ⟨more, hcode, -⟩ | ⟨more, hcode, -⟩
        · exact h
        · exact absurd (by simp [hcode]) hb
        · exact absurd (by simp [hcode]) ha
      have hsub : ∀ {ss ts : List (String × String)}, (∀ a ∈ ss, ' ' ∉ a.1.toList) →
          (∀ b ∈ ts, ' ' ∉ b.1.toList) → ((∀ w ∈ ss.map written, w ∈ ts.map written)
            ↔ ∀ a ∈ ss.map id, a ∈ ts.map id) := by
        intro ss ts hss hts
        rw [List.map_id, List.map_id]
        constructor
        · intro h a ha
          obtain ⟨b, hb, hab⟩ := List.mem_map.mp (h _ (List.mem_map_of_mem ha))
          exact hinj (hts b hb) (hss a ha) hab ▸ hb
        · intro h w hw
          obtain ⟨a, ha, rfl⟩ := List.mem_map.mp hw
          exact List.mem_map_of_mem (h a ha)
      constructor
      · rintro ⟨rfl, rfl, rfl, h⟩
        exact ⟨rfl, rfl, rfl, fun a => ⟨(hsub hp hq).mp (fun w => (h w).mp) a,
          (hsub hq hp).mp (fun w => (h w).mpr) a⟩⟩
      · rintro ⟨rfl, rfl, rfl, h⟩
        exact ⟨rfl, rfl, rfl, fun w => ⟨(hsub hp hq).mpr (fun a => (h a).mp) w,
          (hsub hq hp).mpr (fun a => (h a).mpr) w⟩⟩

end Entry

end Marc

end SnapshotDiff
