import SnapshotDiff.Proofs.Entity.Reading
import SnapshotDiff.Proofs.Finding.Mirror
import SnapshotDiff.Proofs.Node.Keys

/-!
# Which members are held equal

Members without an identity are matched if they have one key, and they have one key if and only if
they agree in every declared field, at any depth.  Keys are texts that are joined without escaping,
so it has to be shown that no two different members are written alike.

## Main definitions

* `Node.Equivalent` — two nodes of one declaration agree in every declared field.
* `Finding.memberKey` — the key that a collection holds a member under.
* `Finding.TellsMember` — a member of a collection is told to have come or left.

## Main results

* `Node.Fits.key_eq_iff` — nodes have one key if and only if they are equivalent.
* `Finding.tellsMember_iff` — a member is told of if the other side has none under its key.
* `Node.key_eq_iff_equivalent` — **keys never confuse different nodes, and a member without an
  identity is told of unless the other side has an equivalent one.**
-/

namespace SnapshotDiff

namespace Node

/-! ### Equivalent nodes -/

/-- Leaves with one key. -/
def AsLeaves : Node → Node → Prop
  | leaf _ k, leaf _ l => k = l
  | _, _ => False

/-- Objects whose fields are related. -/
def AsObjects (R : Table Node → Table Node → Prop) : Node → Node → Prop
  | object fs, object gs => R fs gs
  | _, _ => False

/-- Collections of which every member is related to a member of the other. -/
def AsCollections (R : Node → Node → Prop) : Node → Node → Prop
  | collection ns, collection ms => (∀ n ∈ ns, ∃ m ∈ ms, R n m) ∧ ∀ m ∈ ms, ∃ n ∈ ns, R n m
  | _, _ => False

/-- Free objects with one value. -/
def AsFree : Node → Node → Prop
  | free ms, free ns => Json.obj ms = Json.obj ns
  | _, _ => False

mutual

/-- Two nodes of one declaration agree in every declared field, at any depth.  The order and the
repetition of members do not matter. -/
def Equivalent : FieldShape → Node → Node → Prop
  | .leaf _ => AsLeaves
  | .object _ fields => AsObjects (FieldsEquivalent fields)
  | .leaves _ => AsCollections AsLeaves
  | .objects _ fields _ => AsCollections (AsObjects (FieldsEquivalent fields))
  | .free => AsFree

/-- The same declared fields are present in both objects, and they are equivalent in pairs. -/
def FieldsEquivalent : List (String × FieldShape) → Table Node → Table Node → Prop
  | [] => fun _ _ => True
  | (name, s) :: fields => fun fs gs =>
    Option.Rel (Equivalent s) (fs.get? name) (gs.get? name) ∧ FieldsEquivalent fields fs gs

end

theorem fieldsEquivalent_iff {fields : List (String × FieldShape)} {fs gs : Table Node} :
    FieldsEquivalent fields fs gs
      ↔ ∀ f ∈ fields, Option.Rel (Equivalent f.2) (fs.get? f.1) (gs.get? f.1) := by
  induction fields with
  | nil => simp [FieldsEquivalent]
  | cons f fields ih => simp [FieldsEquivalent, ih]

/-- Collections are equivalent if each has an equivalent for every member of the other. -/
theorem equivalent_collection_iff {s element : FieldShape} (hs : s.element? = some element)
    {ns ms : List Node} : Equivalent s (collection ns) (collection ms)
      ↔ (∀ n ∈ ns, ∃ m ∈ ms, Equivalent element n m)
        ∧ ∀ m ∈ ms, ∃ n ∈ ns, Equivalent element n m := by
  cases s with
  | leaves kind =>
    obtain rfl := Option.some.inj hs
    simp only [Equivalent, AsCollections]
  | objects typeName fields identity =>
    obtain rfl := Option.some.inj hs
    simp only [Equivalent, AsCollections]
  | _ => simp [FieldShape.element?] at hs

namespace Fits

variable {P : Json → Prop} {s : FieldShape} {n m : Node}

theorem fieldsEquivalent_iff_key {typeName : String} {fields : List (String × FieldShape)}
    {fs gs : Table Node}
    (ih : ∀ f ∈ fields, ∀ {n m}, Fits P f.2 n → Fits P f.2 m →
      (n.key = m.key ↔ Equivalent f.2 n m))
    (hfs : Fits P (.object typeName fields) (.object fs))
    (hgs : Fits P (.object typeName fields) (.object gs)) :
    FieldsEquivalent fields fs gs
      ↔ ∀ name, (fs.get? name).map key = (gs.get? name).map key := by
  have hfield : ∀ f ∈ fields, Option.Rel (Equivalent f.2) (fs.get? f.1) (gs.get? f.1)
      ↔ (fs.get? f.1).map key = (gs.get? f.1).map key := by
    intro f hf
    cases hn : fs.get? f.1 with
    | none => cases hm : gs.get? f.1 <;> simp
    | some n =>
      cases hm : gs.get? f.1 with
      | none => simp
      | some m => simp [ih f hf (hfs.field hf hn) (hgs.field hf hm)]
  -- what is not declared is in neither object
  have habsent : ∀ {fs : Table Node}, Fits P (.object typeName fields) (.object fs) →
      ∀ name, name ∉ fields.map Prod.fst → fs.get? name = none := by
    intro fs hfs name hname
    rw [Option.eq_none_iff_forall_not_mem]
    intro n hn
    obtain ⟨s, hs, -⟩ := hfs.exists_declaration (Table.mem_of_get?_eq_some hn)
    exact hname (List.mem_map_of_mem hs)
  rw [fieldsEquivalent_iff]
  constructor
  · intro h name
    by_cases hname : name ∈ fields.map Prod.fst
    · obtain ⟨f, hf, rfl⟩ := List.mem_map.mp hname
      exact (hfield f hf).mp (h f hf)
    · rw [habsent hfs name hname, habsent hgs name hname]
  · exact fun h f hf => (hfield f hf).mpr (h f.1)

/-- Collections have the same keys if each has an equivalent for every member of the other. -/
theorem mem_keys_iff_equivalent {ns ms : List Node}
    (ih : ∀ {n m}, Fits P s n → Fits P s m → (n.key = m.key ↔ Equivalent s n m))
    (hns : ∀ n ∈ ns, Fits P s n) (hms : ∀ m ∈ ms, Fits P s m) :
    (∀ k, k ∈ ns.map key ↔ k ∈ ms.map key)
      ↔ (∀ n ∈ ns, ∃ m ∈ ms, Equivalent s n m) ∧ ∀ m ∈ ms, ∃ n ∈ ns, Equivalent s n m := by
  constructor
  · intro h
    constructor
    · intro n hn
      obtain ⟨m, hm, hkey⟩ := List.mem_map.mp ((h n.key).mp (List.mem_map_of_mem hn))
      exact ⟨m, hm, (ih (hns n hn) (hms m hm)).mp hkey.symm⟩
    · intro m hm
      obtain ⟨n, hn, hkey⟩ := List.mem_map.mp ((h m.key).mpr (List.mem_map_of_mem hm))
      exact ⟨n, hn, (ih (hns n hn) (hms m hm)).mp hkey⟩
  · rintro ⟨hleft, hright⟩ k
    constructor
    · intro hk
      obtain ⟨n, hn, rfl⟩ := List.mem_map.mp hk
      obtain ⟨m, hm, hequivalent⟩ := hleft n hn
      exact (ih (hns n hn) (hms m hm)).mpr hequivalent ▸ List.mem_map_of_mem hm
    · intro hk
      obtain ⟨m, hm, rfl⟩ := List.mem_map.mp hk
      obtain ⟨n, hn, hequivalent⟩ := hright m hm
      exact (ih (hns n hn) (hms m hm)).mpr hequivalent ▸ List.mem_map_of_mem hn

theorem key_leaf_eq_iff {kind : Leaf} (hn : Fits P (.leaf kind) n) (hm : Fits P (.leaf kind) m) :
    n.key = m.key ↔ Equivalent (.leaf kind) n m := by
  cases hn with
  | leaf => cases hm with
    | leaf => rfl

/-- Objects have one key if they agree in every declared field, if that is so of the fields. -/
theorem key_object_eq_iff_of_fields {typeName : String} {fields : List (String × FieldShape)}
    (hs : (FieldShape.object typeName fields).everyObject alphanumeric)
    (ih : ∀ f ∈ fields, ∀ {n m}, Fits P f.2 n → Fits P f.2 m →
      (n.key = m.key ↔ Equivalent f.2 n m))
    (hn : Fits P (.object typeName fields) n) (hm : Fits P (.object typeName fields) m) :
    n.key = m.key ↔ Equivalent (.object typeName fields) n m := by
  obtain ⟨fs, rfl⟩ := hn.exists_object
  obtain ⟨gs, rfl⟩ := hm.exists_object
  rw [key_object_eq_iff hs hn hm, Equivalent]
  exact (fieldsEquivalent_iff_key ih hn hm).symm

/-- **Nodes have one key if and only if they are equivalent.** -/
theorem key_eq_iff (hs : s.everyObject alphanumeric) :
    ∀ {n m}, Fits P s n → Fits P s m → (n.key = m.key ↔ Equivalent s n m) := by
  induction s using FieldShape.fieldInduction with
  | leaf kind => exact key_leaf_eq_iff
  | object typeName fields ih =>
    have hfields := (FieldShape.everyObject_object.mp hs).2
    intro n m hn hm
    exact key_object_eq_iff_of_fields hs (fun f hf => ih f hf (hfields f hf)) hn hm
  | leaves kind =>
    intro n m hn hm
    obtain ⟨ns, rfl, hns⟩ := hn.exists_collection rfl
    obtain ⟨ms, rfl, hms⟩ := hm.exists_collection rfl
    rw [key_collection_eq_iff (s := .leaf kind) rfl hns hms, equivalent_collection_iff rfl]
    exact mem_keys_iff_equivalent key_leaf_eq_iff hns hms
  | objects typeName fields identity ih =>
    intro n m hn hm
    rw [FieldShape.everyObject_objects] at hs
    obtain ⟨ns, rfl, hns⟩ := hn.exists_collection rfl
    obtain ⟨ms, rfl, hms⟩ := hm.exists_collection rfl
    have hfields := (FieldShape.everyObject_object.mp hs).2
    rw [key_collection_eq_iff hs hns hms, equivalent_collection_iff rfl]
    exact mem_keys_iff_equivalent
      (key_object_eq_iff_of_fields hs fun f hf => ih f hf (hfields f hf)) hns hms
  | free =>
    intro n m hn hm
    cases hn with
    | free => cases hm with
      | free => exact key_free_eq_iff.trans ⟨fun h => h ▸ rfl, Json.obj.inj⟩

end Fits

end Node

/-! ### Members that are told of -/

namespace Finding

open Node (Fits)

variable {P : Json → Prop} {rules : Rules} {o : Owner} {name path typeName key : String}
  {s element : FieldShape} {ns ms : List Node}

/-- The key that a collection of the declaration holds a member under. -/
def memberKey (s : FieldShape) (n : Node) : String :=
  match s.identity?, n with
  | some identity, .object fs => identityKey identity fs
  | _, n => n.key

/-- The member does not have the field by which the members of the collection are told apart. -/
def LacksIdentity (s : FieldShape) (n : Node) : Prop :=
  ∀ identity ∈ s.identity?, (n.object?.bind (Table.get? · identity)) = none

/-- It is told that the member with a key has come to the collection at the path, or has left. -/
def TellsMember (o : Owner) (path key : String) (kind : ChangeKind) (xs : List Finding) : Prop :=
  ∃ typeName v, ofMember o typeName path kind key v ∈ xs

/-- What is told of members is told of collections of the object or further down. -/
def SitesBelow (o : Owner) (xs : List Finding) : Prop :=
  ∀ x ∈ xs, ∀ m ∈ x.membership?, o.identity.toList <+: m.site.owner.identity.toList

theorem sitesBelow_map_field (o p : Owner) (cs : List FieldChange) :
    SitesBelow o (cs.map (field p)) := by
  intro x hx m hm
  obtain ⟨c, -, rfl⟩ := List.mem_map.mp hx
  cases hm

theorem sitesBelow_sides {α : Type} {json : α → Json} {both : String → α → α → List Finding}
    {olds news : List (String × α)} (hboth : ∀ k a b, SitesBelow o (both k a b)) :
    SitesBelow o (sides (ofSides o typeName path json both) olds news) := by
  intro x hx
  obtain ⟨k, a, b, -, -, hx⟩ := exists_of_mem_sides hx
  match a, b with
  | none, none => exact absurd hx List.not_mem_nil
  | none, some _ | some _, none =>
    rw [List.mem_singleton.mp hx]
    intro m hm
    rw [← Option.some.inj hm]
  | some a, some b => exact hboth k a b x hx

theorem sitesBelow_ofFields {fields : List (String × FieldShape)} {old new : Table Node}
    (ih : ∀ f ∈ fields, ∀ {o : Owner} {name path : String} {old new : Option Node},
      SitesBelow o (ofField rules o name path old new f.2)) :
    SitesBelow o (ofFields rules o path old new fields) := by
  intro x hx
  rw [ofFields_eq_flatMap] at hx
  obtain ⟨f, hf, hx⟩ := List.mem_flatMap.mp hx
  split at hx
  · exact ih f hf x hx
  · exact absurd hx List.not_mem_nil

/-- A walk tells of members of collections of the object that is walked, or further down. -/
theorem sitesBelow_ofField (s : FieldShape) : ∀ {o : Owner} {name path : String}
    {old new : Option Node}, SitesBelow o (ofField rules o name path old new s) := by
  have hsets : ∀ {o : Owner} {typeName path : String} {olds news : List Node},
      SitesBelow o (ofSets o typeName path olds news) := by
    intro o typeName path olds news
    rw [ofSets_eq_sides]
    exact sitesBelow_sides fun _ _ _ x hx => absurd hx List.not_mem_nil
  induction s using FieldShape.fieldInduction with
  | leaf kind =>
    intro o name path old new
    rw [ofField, ofLeaves_eq_map]
    exact sitesBelow_map_field o o _
  | object typeName fields ih =>
    intro o name path old new
    rw [ofField.eq_def]
    dsimp only
    split
    · exact sitesBelow_ofFields ih
    · rw [ofValues_eq_map]
      exact sitesBelow_map_field o o _
  | leaves kind =>
    intro o name path old new
    rw [ofField]
    exact hsets
  | objects typeName fields identity ih =>
    intro o name path old new
    cases identity with
    | none =>
      rw [ofField]
      exact hsets
    | some identity =>
      rw [ofField_objects_eq_sides]
      refine sitesBelow_sides fun k fs gs x hx m hm => ?_
      rcases List.mem_cons.mp hx with rfl | hx
      · cases hm
      · exact (identity_prefix_member o typeName path k).trans (sitesBelow_ofFields ih x hx m hm)
  | free =>
    intro o name path old new
    rw [ofField, ofFree_eq_map]
    exact sitesBelow_map_field o o _

theorem tellsMember_singleton_iff {kind kind' : ChangeKind} {v : Json} :
    TellsMember o path key kind [ofMember o typeName path kind' key v] ↔ kind = kind' := by
  constructor
  · rintro ⟨_, _, h⟩
    exact (ofMember_inj (List.mem_singleton.mp h)).2
  · rintro rfl
    exact ⟨typeName, v, List.mem_singleton_self _⟩

/-- A member is told of under its key if one side has it and the other does not. -/
theorem tellsMember_sides_iff {α : Type} {json : α → Json} {both : String → α → α → List Finding}
    {olds news : List (String × α)} (hold : (olds.map Prod.fst).Nodup)
    (hnew : (news.map Prod.fst).Nodup)
    (hboth : ∀ k a b kind, ¬TellsMember o path key kind (both k a b)) :
    (TellsMember o path key .removed (sides (ofSides o typeName path json both) olds news)
        ↔ (olds.lookup key).isSome ∧ ¬(news.lookup key).isSome)
      ∧ (TellsMember o path key .added (sides (ofSides o typeName path json both) olds news)
        ↔ (news.lookup key).isSome ∧ ¬(olds.lookup key).isSome) := by
  have hkey : ∀ kind, TellsMember o path key kind
      (sides (ofSides o typeName path json both) olds news)
      ↔ TellsMember o path key kind
        (ofSides o typeName path json both key (olds.lookup key) (news.lookup key)) := by
    intro kind
    rw [sides_eq_flatMap hold hnew]
    constructor
    · rintro ⟨typeName', v, h⟩
      obtain ⟨k, -, h⟩ := List.mem_flatMap.mp h
      -- under another key another member is told of
      have hk : key = k := by
        cases ha : olds.lookup k <;> cases hb : news.lookup k <;>
          simp only [ha, hb, ofSides, List.not_mem_nil, List.mem_singleton] at h
        · exact (ofMember_inj h).1
        · exact (ofMember_inj h).1
        · exact absurd ⟨_, _, h⟩ (hboth _ _ _ _)
      exact ⟨typeName', v, hk ▸ h⟩
    · rintro ⟨typeName', v, h⟩
      refine ⟨typeName', v, List.mem_flatMap.mpr ⟨key, mem_sideKeys.mpr ?_, h⟩⟩
      rw [← List.lookup_isSome_iff_mem, ← List.lookup_isSome_iff_mem]
      by_contra hnone
      simp only [not_or, Option.not_isSome_iff_eq_none] at hnone
      rw [hnone.1, hnone.2] at h
      exact absurd h List.not_mem_nil
  rw [hkey, hkey]
  cases olds.lookup key with
  | none =>
    cases news.lookup key with
    | none => simp [TellsMember, ofSides]
    | some b => simp [ofSides, tellsMember_singleton_iff]
  | some a =>
    cases news.lookup key with
    | none => simp [ofSides, tellsMember_singleton_iff]
    | some b => simp [ofSides, hboth]

theorem memberKey_object {identity : String} (hs : s.identity? = some identity) (fs : Table Node) :
    memberKey s (.object fs) = identityKey identity fs := by
  simp only [memberKey, hs]

theorem memberKey_of_identity?_eq_none (hs : s.identity? = none) (n : Node) :
    memberKey s n = n.key := by
  simp only [memberKey, hs]

theorem mem_map_memberKey_iff {identity : String} (hs : s.identity? = some identity)
    (hns : ∀ n ∈ ns, ∃ fs, n = Node.object fs) :
    key ∈ ns.map (memberKey s) ↔ ∃ fs, .object fs ∈ ns ∧ identityKey identity fs = key := by
  constructor
  · intro h
    obtain ⟨n, hn, rfl⟩ := List.mem_map.mp h
    obtain ⟨fs, rfl⟩ := hns n hn
    exact ⟨fs, hn, (memberKey_object hs fs).symm⟩
  · rintro ⟨fs, hfs, rfl⟩
    exact List.mem_map.mpr ⟨_, hfs, memberKey_object hs fs⟩

/-- **A member of a collection is told of if the other side has none under its key.** -/
theorem tellsMember_iff (hs : s.element? = some element)
    (hns : ∀ n ∈ ns, Fits P element n) (hms : ∀ m ∈ ms, Fits P element m) :
    (TellsMember o path key .removed
        (ofField rules o name path (some (.collection ns)) (some (.collection ms)) s)
        ↔ key ∈ ns.map (memberKey s) ∧ key ∉ ms.map (memberKey s))
      ∧ (TellsMember o path key .added
        (ofField rules o name path (some (.collection ns)) (some (.collection ms)) s)
        ↔ key ∈ ms.map (memberKey s) ∧ key ∉ ns.map (memberKey s)) := by
  have hsets : ∀ typeName, (TellsMember o path key .removed (ofSets o typeName path ns ms)
        ↔ key ∈ ns.map Node.key ∧ key ∉ ms.map Node.key)
      ∧ (TellsMember o path key .added (ofSets o typeName path ns ms)
        ↔ key ∈ ms.map Node.key ∧ key ∉ ns.map Node.key) := by
    intro typeName
    rw [ofSets_eq_sides, ← Node.isSome_lookup_byKey_iff, ← Node.isSome_lookup_byKey_iff]
    refine tellsMember_sides_iff (nodup_keys_byKey ns) (nodup_keys_byKey ms) ?_
    simp [TellsMember]
  cases s with
  | leaves kind =>
    rw [ofField]
    exact hsets "Value"
  | objects typeName fields identity =>
    obtain rfl := Option.some.inj hs
    cases identity with
    | none =>
      rw [ofField]
      exact hsets typeName
    | some identity =>
      rw [ofField_objects_eq_sides, mem_map_memberKey_iff rfl fun n hn => (hns n hn).exists_object,
        mem_map_memberKey_iff rfl fun m hm => (hms m hm).exists_object,
        ← Node.isSome_lookup_byIdentity_iff, ← Node.isSome_lookup_byIdentity_iff]
      refine tellsMember_sides_iff (nodup_keys_byIdentity _ _) (nodup_keys_byIdentity _ _) ?_
      rintro k fs gs kind ⟨typeName', v, h⟩
      rcases List.mem_cons.mp h with h | h
      · simp [ofMember] at h
      · -- what is found on the fields of a member is not about the collection that it is in
        have hbelow : SitesBelow (o.member typeName path k)
            (ofFields rules (o.member typeName path k) path fs gs fields) :=
          sitesBelow_ofFields fun f _ => sitesBelow_ofField f.2
        have hlength := (hbelow _ h _ rfl).length_le
        simp only [Owner.member, String.toList_append, List.length_append] at hlength
        have hbracket : "[".toList.length = 1 := rfl
        omega
  | _ => simp [FieldShape.element?] at hs

/-- Members are matched if they have one key, if one of them lacks its identity. -/
theorem memberKey_eq_iff (hs : s.everyObject alphanumeric) (helement : s.element? = some element)
    {a b : Node} (ha : Fits P element a) (hb : Fits P element b) (hlacks : LacksIdentity s a) :
    memberKey s a = memberKey s b ↔ a.key = b.key := by
  cases hidentity : s.identity? with
  | none =>
    rw [memberKey_of_identity?_eq_none hidentity, memberKey_of_identity?_eq_none hidentity]
  | some identity =>
    obtain ⟨typeName, fields, rfl⟩ := FieldShape.exists_object_of_identity helement hidentity
    obtain ⟨fs, rfl⟩ := ha.exists_object
    obtain ⟨gs, rfl⟩ := hb.exists_object
    have hnone : Table.get? fs identity = none := hlacks identity hidentity
    rw [memberKey_object hidentity, memberKey_object hidentity]
    constructor
    · -- the sign in front tells that the other member lacks its identity as well
      intro h
      rw [identityKey, hnone, identityKey] at h
      cases hother : Table.get? gs identity with
      | none =>
        rw [hother] at h
        have hlist := congrArg String.toList h
        simp only [String.toList_append] at hlist
        exact String.toList_inj.mp (List.cons.inj hlist).2
      | some i =>
        rw [hother] at h
        have hlist := congrArg String.toList h
        simp only [String.toList_append] at hlist
        exact absurd (List.cons.inj hlist).1 (by decide)
    · intro h
      exact Node.identityKey_eq_of_key_eq (FieldShape.everyObject_element hs helement) ha hb h
        identity

end Finding

/-! ### Nodes that are read -/

namespace Node

open Finding (LacksIdentity TellsMember memberKey members ofField tellsMember_iff)

variable {f g : Family} {p q : String} {s : FieldShape} {v w : Json} {n m : Node}

/-- **Keys never confuse different nodes.**  Two nodes that are read against one declaration have
one key if and only if they agree in every declared field.  So a member that lacks an identity is
matched with those of the other side that agree with it in every declared field, and with no others,
and it is told to have left or come if there is none. -/
theorem key_eq_iff_equivalent (hs : s.everyObject alphanumeric) (hn : readField f p v s = .ok n)
    (hm : readField g q w s = .ok m) :
    (n.key = m.key ↔ Equivalent s n m)
    ∧ ∀ element, s.element? = some element →
      (∀ a ∈ members (some n), ∀ b ∈ members (some m), LacksIdentity s a ∨ LacksIdentity s b →
        (memberKey s a = memberKey s b ↔ Equivalent element a b))
      ∧ ∀ rules o name path,
        (∀ a ∈ members (some n), LacksIdentity s a →
          (TellsMember o path (memberKey s a) .removed
              (ofField rules o name path (some n) (some m) s)
            ↔ ∀ b ∈ members (some m), ¬Equivalent element a b))
        ∧ ∀ b ∈ members (some m), LacksIdentity s b →
          (TellsMember o path (memberKey s b) .added
              (ofField rules o name path (some n) (some m) s)
            ↔ ∀ a ∈ members (some n), ¬Equivalent element a b) := by
  have hfits := fits_readField (P := fun _ => True) Json.hereditary_true hs trivial hn
  have hfits' := fits_readField (P := fun _ => True) Json.hereditary_true hs trivial hm
  refine ⟨hfits.key_eq_iff hs hfits', fun element helement => ?_⟩
  obtain ⟨ns, rfl, hns⟩ := hfits.exists_collection helement
  obtain ⟨ms, rfl, hms⟩ := hfits'.exists_collection helement
  have hkeys : ∀ a ∈ ns, ∀ b ∈ ms, LacksIdentity s a ∨ LacksIdentity s b →
      (memberKey s a = memberKey s b ↔ Equivalent element a b) := by
    intro a ha b hb hlacks
    rw [← (hns a ha).key_eq_iff (FieldShape.everyObject_element hs helement) (hms b hb)]
    rcases hlacks with hlacks | hlacks
    · exact Finding.memberKey_eq_iff hs helement (hns a ha) (hms b hb) hlacks
    · rw [eq_comm, Finding.memberKey_eq_iff hs helement (hms b hb) (hns a ha) hlacks, eq_comm]
  refine ⟨hkeys, fun rules o name path => ⟨fun a ha hlacks => ?_, fun b hb hlacks => ?_⟩⟩
  · rw [(tellsMember_iff helement hns hms).1]
    constructor
    · rintro ⟨-, hnone⟩ b hb hequivalent
      exact hnone (List.mem_map.mpr ⟨b, hb, ((hkeys a ha b hb (.inl hlacks)).mpr hequivalent).symm⟩)
    · intro hnone
      refine ⟨List.mem_map_of_mem ha, fun hmem => ?_⟩
      obtain ⟨b, hb, hkey⟩ := List.mem_map.mp hmem
      exact hnone b hb ((hkeys a ha b hb (.inl hlacks)).mp hkey.symm)
  · rw [(tellsMember_iff helement hns hms).2]
    constructor
    · rintro ⟨-, hnone⟩ a ha hequivalent
      exact hnone (List.mem_map.mpr ⟨a, ha, (hkeys a ha b hb (.inr hlacks)).mpr hequivalent⟩)
    · intro hnone
      refine ⟨List.mem_map_of_mem hb, fun hmem => ?_⟩
      obtain ⟨a, ha, hkey⟩ := List.mem_map.mp hmem
      exact hnone a ha ((hkeys a ha b hb (.inr hlacks)).mp hkey)

end Node

/-! ### Notes -/

namespace Noted

open Finding (TellsMember memberKey ofField)
open Node (readField)

/-- Notes with tags, which are told apart by their `id` if they have one. -/
def declared : FieldShape :=
  .objects "Note" [("id", .leaf .string), ("tags", .leaves .string)] (some "id")

/-- A note without an `id`. -/
def note (tags : List String) : Json := .obj [("tags", .arr (tags.map .str))]

/-- The note as it is read. -/
def noteNode (tags : List String) : Node :=
  .object [("tags", .collection (tags.map fun t => .leaf (.str t) (Json.str t).text))]

/-- Two tags are not one tag with what is written between two texts, and a note with one is not told
to have left if the other side has its tags in another order. -/
theorem key_eq_iff_equivalent_tagged :
    readField .item "" (.arr [note ["a", "b"]]) declared
        = .ok (.collection [noteNode ["a", "b"]])
    ∧ readField .item "" (.arr [note ["a\",\"b"], note ["b", "a", "b"]]) declared
        = .ok (.collection [noteNode ["a\",\"b"], noteNode ["b", "a", "b"]])
    ∧ ¬Node.Equivalent (.object "Note" [("id", .leaf .string), ("tags", .leaves .string)])
        (noteNode ["a", "b"]) (noteNode ["a\",\"b"])
    ∧ ∀ rules o name path, ¬TellsMember o path (memberKey declared (noteNode ["a", "b"])) .removed
        (ofField rules o name path (some (.collection [noteNode ["a", "b"]]))
          (some (.collection [noteNode ["a\",\"b"], noteNode ["b", "a", "b"]])) declared) := by
  have hn : readField .item "" (.arr [note ["a", "b"]]) declared
      = .ok (.collection [noteNode ["a", "b"]]) := rfl
  have hm : readField .item "" (.arr [note ["a\",\"b"], note ["b", "a", "b"]]) declared
      = .ok (.collection [noteNode ["a\",\"b"], noteNode ["b", "a", "b"]]) := rfl
  have hlacks : Finding.LacksIdentity declared (noteNode ["a", "b"]) := by
    rintro _ ⟨⟩
    rfl
  obtain ⟨-, hmembers⟩ := Node.key_eq_iff_equivalent (by decide) hn hm
  obtain ⟨hkeys, htold⟩ := hmembers _ rfl
  refine ⟨hn, hm, fun hequivalent => ?_, fun rules o name path htells => ?_⟩
  · have hkey := (hkeys _ List.mem_cons_self _ List.mem_cons_self (.inl hlacks)).mpr hequivalent
    revert hkey
    decide
  · have hmem : noteNode ["b", "a", "b"]
        ∈ [noteNode ["a\",\"b"], noteNode ["b", "a", "b"]] := by simp
    refine ((htold rules o name path).1 _ List.mem_cons_self hlacks).mp htells _ hmem ?_
    exact (hkeys _ List.mem_cons_self _ hmem (.inl hlacks)).mp (by decide)

end Noted

end SnapshotDiff
